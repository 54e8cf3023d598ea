import ChiaVdf.BqfcSafety
import ChiaVdf.XgcdWords

/-! The encoding of forms on builds with limbs of different sizes. Where the partial gcd stops is
decided on leading words, so the cofactor can be the one of a later remainder, and which one it is
depends on the size of a limb. -/
namespace ChiaVdf

open Xgcd

namespace Bqfc

/-- `compr` of a build with `GMP_LIMB_BITS = n`. -/
def comprLimb (n : ℕ) (a b : ℤ) : Exec QfbC :=
  if a = b then .done ⟨a, 0, 0, 0, false⟩
  else do
    let sign : Bool := b < 0
    let aSqrt ← mpzSqrt a
    let s ← mpzXgcdPartialLimb n a (if sign then -b else b) aSqrt
    let t := -s.co1
    let g : ℤ := Int.gcd a t
    if g = 1 then return ⟨a, t, g, 0, sign⟩
    else do
      let a' ← mpzDivexact a g
      let t' ← mpzDivexact t g
      let b0 ← mpzTdivQ b a'
      return ⟨a', t', g, if sign then -b0 else b0, sign⟩

/-- `serialize` of a build with `GMP_LIMB_BITS = n`. -/
def serializeLimb (n : ℕ) (a b : ℤ) (dBits : ℕ) : Exec (ℤ × ByteString) :=
  if getComprSize dBits ≤ 0 ∨ getComprSize dBits > BQFC_FORM_SIZE then .done (-1, padded [])
  else if b = 1 ∧ a ≤ 2 then .done (0, padded [if a = 2 then IS_GEN else IS_1])
  else do
    let c ← comprLimb n a b
    let (ret, written) ← serializeOnly c dBits
    return (ret, padded written)

end Bqfc

namespace Xgcd

deriving instance DecidableEq for State

/-- The stage of Euclid's algorithm with the first remainder within the bound. -/
def FirstWithin (N b L : ℤ) (s : State) : Prop :=
  ∃ m, s = divisionStep^[m] (start N b) ∧ s.r1 ≤ L ∧ ∀ j < m, L < (divisionStep^[j] (start N b)).r1

variable {N b L : ℤ} {s t : State}

theorem FirstWithin.unique (first : FirstWithin N b L s) (second : FirstWithin N b L t) : s = t := by
  obtain ⟨m, rfl, low, above⟩ := first
  obtain ⟨k, rfl, low', above'⟩ := second
  rcases lt_trichotomy m k with before | same | after
  · exact absurd low (not_le.mpr (above' m before))
  · rw [same]
  · exact absurd low' (not_le.mpr (above k after))

/-- No turn of an inner loop starts from a remainder within the bound. -/
def StopsInTime (n : ℕ) (N b L : ℤ) : Prop :=
  ∀ t, Visits n L (start N b) t → L < t.r1 → ¬Passes n L t

/-- Where Euclid's algorithm on `N` and `b` has come to a remainder within the bound, the leading words
that were taken before do not vouch for one more division. -/
def WordsStop (n : ℕ) (N b L : ℤ) : Prop :=
  ∀ j, Block n L (start N b) j → (∀ k ≤ j, L < (divisionStep^[k] (start N b)).r1) →
    ∀ i, (divisionStep^[j + i] (start N b)).r1 ≤ L → ∃ k ≤ i, ¬Vouched n L (divisionStep^[j] (start N b)) k

theorem stopsInTime_iff {n : ℕ} (bs : 0 ≤ b) (le : b ≤ N) (Ls : 0 ≤ L) :
    StopsInTime n N b L ↔ WordsStop n N b L := by
  have ord := start_ordered bs le
  constructor
  · intro inTime j block before i low
    have visit := block.visits ord Ls
    have above := before j le_rfl
    obtain ⟨-, last⟩ := limbTurns_vouches (n := n) (visits_ordered ord Ls visit).1 Ls above
    refine ⟨_, not_lt.mp fun more => inTime _ visit above ⟨i, more, ?_⟩, last⟩
    rwa [← Function.iterate_add_apply, add_comm]
  · rintro stop t visit above ⟨i, more, low⟩
    obtain ⟨j, block, desc, rfl⟩ := visits_stage ord Ls visit
    obtain ⟨made, -⟩ := limbTurns_vouches (n := n) (desc.ordered ord) Ls above
    obtain ⟨k, le, none⟩ := stop j block (fun k le => above.trans_le (desc.le_at le)) i (by
      rwa [add_comm, Function.iterate_add_apply])
    exact none (made k (by omega))

/-- It is enough that no stage before the first remainder within the bound has such leading words. -/
theorem wordsStop_of_stages {n m : ℕ} (low : (divisionStep^[m] (start N b)).r1 ≤ L)
    (before : ∀ j < m, L < (divisionStep^[j] (start N b)).r1)
    (all : ∀ j < m, ∃ k ≤ m - j, ¬Vouched n L (divisionStep^[j] (start N b)) k) : WordsStop n N b L := by
  intro j _ above i within
  have early : j < m := not_le.mp fun late => absurd low (not_le.mpr (above m late))
  have late : m ≤ j + i := not_lt.mp fun inside => absurd within (not_le.mpr (before _ inside))
  obtain ⟨k, le, none⟩ := all j early
  exact ⟨k, by omega, none⟩

/-- Operands that lose no bit to the shift, or need no division at all, stop in time. -/
theorem stopsInTime_of_fits {n : ℕ} (wide : 1 < n) (bs : 0 ≤ b) (le : b ≤ N) (Ls : 0 ≤ L)
    (fits : N < 2 ^ (n - 1) ∨ b ≤ L) : StopsInTime n N b L := by
  intro t visit above
  have ord := start_ordered bs le
  rcases fits with small | low
  · obtain ⟨ord', below⟩ := visits_ordered ord Ls visit
    exact not_passes_of_fits wide ord' Ls above (below.trans_lt small)
  · rcases Relation.ReflTransGen.cases_head visit with rfl | ⟨s, ⟨above', -⟩, -⟩
    · exact absurd low (not_le.mpr above)
    · exact absurd low (not_le.mpr above')

/-- The partial gcd returns the cofactor of the first remainder within the bound. -/
def ExactCofactor (n : ℕ) (N b L : ℤ) : Prop :=
  ∃ s t, mpzXgcdPartialLimb n N b L = .done s ∧ FirstWithin N b L t ∧ s.co1 = t.co1

/-- Every later remainder has another cofactor, so the partial gcd must not pass the bound. -/
theorem exactCofactor_iff (n : ℕ) (bs : 0 ≤ b) (le : b ≤ N) (Ls : 0 ≤ L) :
    ExactCofactor n N b L ↔ StopsInTime n N b L := by
  obtain ⟨m, run, desc, low, passes⟩ := mpzXgcdPartialLimb_spec n bs le Ls
  rw [StopsInTime, ← passes]
  constructor
  · rintro ⟨s, t, run', ⟨k, rfl, low', above⟩, same⟩
    obtain rfl := Exec.done.inj (run.symm.trans run')
    have first : k ≤ m := not_lt.mp fun later => absurd low (not_le.mpr (above m later))
    obtain rfl := (desc.cofactor_inj (start_ordered bs le) (start_alternates N b) first).mp same
    exact above
  · exact fun above => ⟨_, _, run, ⟨m, rfl, low, above⟩, rfl⟩

end Xgcd

namespace Bqfc

variable {a b : ℤ}

theorem comprLimb_congr {n m : ℕ} {s t : State} (as : 0 ≤ a)
    (run : mpzXgcdPartialLimb n a |b| a.toNat.sqrt = .done s)
    (run' : mpzXgcdPartialLimb m a |b| a.toNat.sqrt = .done t) (same : s.co1 = t.co1) :
    comprLimb n a b = comprLimb m a b := by
  simp only [comprLimb, mpzSqrt_done as, Exec.done_bind, sign_abs, run, run', same]

theorem serializeLimb_congr {n m : ℕ} (same : comprLimb n a b = comprLimb m a b) (dBits : ℕ) :
    serializeLimb n a b dBits = serializeLimb m a b dBits := by
  simp only [serializeLimb, same]

theorem serializeLimb_eq (small : |b| ≤ a) (dBits : ℕ) :
    serializeLimb 64 a b dBits = serialize a b dBits := by
  have as : 0 ≤ a := (abs_nonneg b).trans small
  obtain ⟨m, run, -⟩ := mpzXgcdPartialLimb_spec 64 (abs_nonneg b) small
    (Int.natCast_nonneg a.toNat.sqrt)
  have compressed : comprLimb 64 a b = compr a b := by
    simp only [comprLimb, compr, mpzSqrt_done as, Exec.done_bind, sign_abs, run,
      mpzXgcdPartial_of_limb run]
  simp only [serializeLimb, serialize, compressed]

/-- The cofactor is exact on both limb sizes, and the bytes are the same. -/
def WordSizeFree (f : Form) : Prop :=
  (∀ n, n = 64 ∨ n = 32 → ExactCofactor n f.a |f.b| f.a.toNat.sqrt) ∧
    ∀ dBits, serializeLimb 32 f.a f.b dBits = serializeLimb 64 f.a f.b dBits

/-- The encoding is free of the word size where the operands lose no bit on either limb size, or
no division is needed. For longer operands it is so exactly when, on both limb sizes, no leading words
vouch for a division behind the first remainder of `a` and `|b|` within the bound. -/
theorem wordSizeFree_iff {f : Form} (small : |f.b| < f.a) :
    (f.a < 2 ^ 31 ∨ |f.b| ≤ f.a.toNat.sqrt → WordSizeFree f) ∧
      (WordSizeFree f ↔ ∀ n, n = 64 ∨ n = 32 → WordsStop n f.a |f.b| f.a.toNat.sqrt) := by
  have rootNonneg := Int.natCast_nonneg f.a.toNat.sqrt
  have exact_iff (n : ℕ) : ExactCofactor n f.a |f.b| f.a.toNat.sqrt ↔ WordsStop n f.a |f.b| f.a.toNat.sqrt :=
    (exactCofactor_iff n (abs_nonneg f.b) small.le rootNonneg).trans
      (stopsInTime_iff (abs_nonneg f.b) small.le rootNonneg)
  have free_iff : WordSizeFree f ↔ ∀ n, n = 64 ∨ n = 32 → WordsStop n f.a |f.b| f.a.toNat.sqrt := by
    constructor
    · rintro ⟨exact, -⟩ n width
      exact (exact_iff n).mp (exact n width)
    · intro inTime
      have exact (n : ℕ) (width : n = 64 ∨ n = 32) := (exact_iff n).mpr (inTime n width)
      refine ⟨exact, fun dBits => ?_⟩
      obtain ⟨s, first, run, within, same⟩ := exact 32 (.inr rfl)
      obtain ⟨t, first', run', within', same'⟩ := exact 64 (.inl rfl)
      have equal : s.co1 = t.co1 := by rw [same, same', within.unique within']
      exact serializeLimb_congr (comprLimb_congr ((abs_nonneg f.b).trans small.le) run run' equal) dBits
  refine ⟨fun fits => free_iff.mpr fun n width => ?_, free_iff⟩
  have least : (2 : ℤ) ^ 31 ≤ 2 ^ (n - 1) := pow_le_pow_right₀ one_le_two (by omega)
  rw [← stopsInTime_iff (abs_nonneg f.b) small.le rootNonneg]
  apply stopsInTime_of_fits (by omega) (abs_nonneg f.b) small.le rootNonneg
  exact fits.imp (fun word => word.trans_le least) id

instance (i : ℕ) (w w' : Words) : Decidable (Exactly i w w') := by
  unfold Exactly
  infer_instance

instance (n : ℕ) (L : ℤ) (s : State) (i : ℕ) : Decidable (Vouched n L s i) :=
  inferInstanceAs (Decidable (_ ∧ _))

/-- A form of 70 bits, which lose some on both limb sizes. With 64-bit limbs the first words vouch for
fifteen divisions, and with 32-bit limbs for six. -/
theorem wordSizeFree_turns :
    let f : Form := ⟨929339868545501023259, -743102499139873079099, 929339868545501023260⟩
    WordSizeFree f ∧ limbTurns 64 f.a.toNat.sqrt (start f.a |f.b|) = 15 ∧
      limbTurns 32 f.a.toNat.sqrt (start f.a |f.b|) = 6 := by
  intro f
  have root : f.a.toNat.sqrt = 30485076161 := by
    change Nat.sqrt 929339868545501023259 = 30485076161
    norm_num
  refine ⟨(wordSizeFree_iff (by decide)).2.mpr fun n width => ?_, ?_, ?_⟩
  · rw [root]
    apply wordsStop_of_stages (m := 17) (by decide +kernel) (by decide +kernel)
    rcases width with rfl | rfl <;> decide +kernel
  · rw [root]
    decide +kernel
  · rw [root]
    decide +kernel

/-- A form of the discriminant `-1387691476735972926939383`. With 32-bit limbs the partial gcd goes
on to the remainder after the one within the bound, so the bytes are not those of 64-bit limbs. -/
theorem limbs_disagree :
    let f : Form := ⟨590782422943, 91673378979, 590782422992⟩
    f.Reduced ∧ 1 < f.a ∧ 0 < |f.b| ∧ |f.b| < f.a ∧
      ¬ExactCofactor 32 f.a |f.b| f.a.toNat.sqrt ∧
      serializeLimb 32 f.a f.b (numBits f.disc) ≠ serializeLimb 64 f.a f.b (numBits f.disc) ∧
      ¬WordSizeFree f := by
  intro f
  have root : (590782422943 : ℤ).toNat.sqrt = 768623 := by
    change Nat.sqrt 590782422943 = 768623
    norm_num
  have sqrt : mpzSqrt 590782422943 = .done 768623 := by rw [mpzSqrt_done (by norm_num), root]; rfl
  have abs : |(91673378979 : ℤ)| = 91673378979 := rfl
  have run32 : mpzXgcdPartialLimb 32 590782422943 91673378979 768623 =
      .done ⟨250076, -541841, 750711, 735842⟩ := by decide +kernel
  have run64 : mpzXgcdPartialLimb 64 590782422943 91673378979 768623 =
      .done ⟨-41689, 250076, 2237264, 750711⟩ := by decide +kernel
  have first : FirstWithin 590782422943 91673378979 768623 ⟨-41689, 250076, 2237264, 750711⟩ :=
    ⟨7, by decide +kernel, by norm_num, by decide +kernel⟩
  have inexact : ¬ExactCofactor 32 f.a |f.b| f.a.toNat.sqrt := by
    rintro ⟨s, t, run, within, same⟩
    change mpzXgcdPartialLimb 32 590782422943 |91673378979| ((590782422943 : ℤ).toNat.sqrt : ℕ) = _ at run
    change FirstWithin 590782422943 |91673378979| ((590782422943 : ℤ).toNat.sqrt : ℕ) t at within
    rw [root, abs] at run within
    obtain rfl := Exec.done.inj (run32.symm.trans run)
    obtain rfl := first.unique within
    exact absurd same (by decide)
  have compr32 : comprLimb 32 f.a f.b = .done ⟨590782422943, 541841, 1, 0, false⟩ := by
    change comprLimb 32 590782422943 91673378979 = _
    simp only [comprLimb, sqrt, Exec.done_bind]
    decide +kernel
  have compr64 : comprLimb 64 f.a f.b = .done ⟨590782422943, -250076, 1, 0, false⟩ := by
    change comprLimb 64 590782422943 91673378979 = _
    simp only [comprLimb, sqrt, Exec.done_bind]
    decide +kernel
  have bytes : serializeLimb 32 f.a f.b (numBits f.disc) ≠
      serializeLimb 64 f.a f.b (numBits f.disc) := by
    simp only [serializeLimb, compr32, compr64, Exec.done_bind]
    decide +kernel
  refine ⟨by decide +kernel, by decide, by decide, by decide, inexact, bytes, ?_⟩
  exact fun free => inexact (free.1 32 (.inr rfl))

end Bqfc

end ChiaVdf
