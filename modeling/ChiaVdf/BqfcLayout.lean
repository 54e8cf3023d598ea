import ChiaVdf.Bqfc

/-! The byte layout of compressed forms: which fields fit, and that a string that was written
completely is read back field by field. -/
namespace ChiaVdf.Bqfc

open ByteString

/-- The field has a byte at least and holds the number. -/
def Fits (size : ℕ) (n : ℤ) : Prop := 0 < size ∧ n.natAbs < 256 ^ size

theorem needed_le_iff (size : ℕ) (n : ℤ) : (mpzSizeinbase2 n + 7) / 8 ≤ size ↔ Fits size n := by
  have bits : 1 ≤ mpzSizeinbase2 n := by unfold mpzSizeinbase2; split <;> omega
  rcases Nat.eq_zero_or_pos size with rfl | pos
  · simp only [Fits, lt_irrefl, false_and, iff_false]
    omega
  · rw [Fits, show (256 : ℕ) = 2 ^ 8 by norm_num, ← pow_mul,
      natAbs_lt_iff_sizeinbase2_le (by omega)]
    omega

theorem mpzExport_padded (fits : Fits size n) :
    mpzExport n ++ List.replicate (size - (mpzExport n).length) 0 = lsbFirst size n.natAbs := by
  unfold mpzExport
  split
  · subst n; simp [lsbFirst_zero]
  · have needed := (needed_le_iff size n).mpr fits
    have small : n.natAbs < 256 ^ ((mpzSizeinbase2 n + 7) / 8) :=
      ((needed_le_iff _ n).mp le_rfl).2
    rw [length_lsbFirst, lsbFirst_append_zeros small]
    congr 1
    omega

theorem bqfcExport_done : bqfcExport out size n = .done (0, s) ↔
    Fits size n ∧ out.length + size ≤ BQFC_FORM_SIZE ∧ s = out ++ lsbFirst size n.natAbs := by
  unfold bqfcExport
  by_cases fits : Fits size n
  · have needed := (needed_le_iff size n).mpr fits
    rw [if_neg (by omega), List.append_assoc, mpzExport_padded fits]
    split
    · simp; omega
    · simp only [Exec.done.injEq, Prod.mk.injEq, fits, true_and]
      constructor
      · rintro rfl; exact ⟨by omega, rfl⟩
      · rintro ⟨-, rfl⟩; rfl
  · have needed := (needed_le_iff size n).not.mpr fits
    rw [if_pos (by omega)]
    simp [fits]

theorem exportFields_done (fields : List (ℕ × ℤ)) (inside : out.length ≤ BQFC_FORM_SIZE) :
    exportFields out fields = .done (0, s) ↔ (∀ f ∈ fields, Fits f.1 f.2) ∧
      out.length + (fields.map Prod.fst).sum ≤ BQFC_FORM_SIZE ∧
      s = out ++ fields.flatMap fun f => lsbFirst f.1 f.2.natAbs := by
  induction fields generalizing out with
  | nil => simp [exportFields, inside, eq_comm]
  | cons field fields ih =>
    obtain ⟨size, n⟩ := field
    have step : exportFields out ((size, n) :: fields) = .done (0, s) ↔
        ∃ w, bqfcExport out size n = .done (0, w) ∧ exportFields w fields = .done (0, s) := by
      simp only [exportFields]
      cases run : bqfcExport out size n with
      | done r =>
        obtain ⟨ret, w⟩ := r
        by_cases zero : ret = 0
        · subst zero; simp
        · simp [zero]
      | thrown | fault | diverged => simp
    rw [step]
    simp only [bqfcExport_done, List.forall_mem_cons, List.map_cons, List.sum_cons,
      List.flatMap_cons]
    constructor
    · rintro ⟨w, ⟨fits, room, rfl⟩, rest⟩
      have room' : (out ++ lsbFirst size n.natAbs).length ≤ BQFC_FORM_SIZE := by simpa using room
      obtain ⟨all, total, rfl⟩ := (ih room').mp rest
      rw [List.length_append, length_lsbFirst] at total
      exact ⟨⟨fits, all⟩, by omega, by rw [List.append_assoc]⟩
    · rintro ⟨⟨fits, all⟩, total, rfl⟩
      have room' : (out ++ lsbFirst size n.natAbs).length ≤ BQFC_FORM_SIZE := by simp; omega
      refine ⟨_, ⟨fits, by omega, rfl⟩, (ih room').mpr ⟨all, ?_, by rw [List.append_assoc]⟩⟩
      rw [List.length_append, length_lsbFirst]
      omega

/-- The fields of a compressed form fit the widths that a discriminant of `32 * k` bits
gives them, and no width underflows. -/
structure FieldsFit (k : ℕ) (c : QfbC) : Prop where
  width : gSize c < k
  a : c.a.natAbs < 256 ^ (2 * k - gSize c)
  t : c.t.natAbs < 256 ^ (k - gSize c)
  g : c.g.natAbs < 256 ^ (gSize c + 1)
  b0 : c.b0.natAbs < 256 ^ (gSize c + 1)

/-- The bytes of a compressed form before the padding. -/
def layout (k : ℕ) (c : QfbC) : ByteString :=
  ((if c.bSign then B_SIGN else 0) ||| (if c.t < 0 then T_SIGN else 0)) :: UInt8.ofNat (gSize c) ::
    (lsbFirst (2 * k - gSize c) c.a.natAbs ++ (lsbFirst (k - gSize c) c.t.natAbs ++
      (lsbFirst (gSize c + 1) c.g.natAbs ++ lsbFirst (gSize c + 1) c.b0.natAbs)))

/-- The number of 32-bit words of the rounded discriminant size. -/
def words (dBits : ℕ) : ℕ := (dBits + 31) / 32

theorem roundBits_eq (dBits : ℕ) : roundBits dBits = words dBits * 32 := rfl

theorem sizeSub_of_le (le : y ≤ x) (small : x < 2 ^ 64) : sizeSub x y = x - y := by
  unfold sizeSub
  omega

theorem sizeSub_of_lt (lt : x < y) (small : y < 2 ^ 63) : 2 ^ 63 < sizeSub x y := by
  unfold sizeSub
  omega

theorem sum_widths (x y z : ℕ) (a t g b : ℤ) :
    (List.map Prod.fst [(x, a), (y, t), (z + 1, g), (z + 1, b)]).sum = x + y + 2 * z + 2 := by
  simp only [List.map_cons, List.map_nil, List.sum_cons, List.sum_nil]
  omega

theorem serializeOnly_done (pos : 0 < dBits) (le : dBits ≤ 1024) :
    serializeOnly c dBits = .done (0, s) ↔ FieldsFit (words dBits) c ∧ s = layout (words dBits) c := by
  have kpos : 0 < words dBits := by unfold words; omega
  have kle : words dBits ≤ 32 := by unfold words; omega
  have size : BQFC_FORM_SIZE = 100 := rfl
  have guard : ¬(dBits = 0 ∨ dBits > BQFC_MAX_D_BITS) := by unfold BQFC_MAX_D_BITS; omega
  have guard' : ¬roundBits dBits > BQFC_MAX_D_BITS := by
    rw [roundBits_eq]; unfold BQFC_MAX_D_BITS; omega
  have wide : roundBits dBits / 16 = 2 * words dBits := by rw [roundBits_eq]; omega
  have narrow : roundBits dBits / 32 = words dBits := by rw [roundBits_eq]; omega
  simp only [serializeOnly, if_neg guard, if_neg guard']
  by_cases big : gSize c > 255
  · rw [if_pos big]
    constructor
    · intro absurd; simp at absurd
    · rintro ⟨fit, -⟩; have := fit.width; omega
  rw [if_neg big, exportFields_done _ (by rw [size]; simp)]
  simp only [fields, wide, narrow, size]
  generalize wa : sizeSub (2 * words dBits) (gSize c) = aBytes
  generalize wt : sizeSub (words dBits) (gSize c) = tBytes
  rw [sum_widths]
  simp only [List.forall_mem_cons, List.length_cons, List.length_nil, List.flatMap_cons,
    List.flatMap_nil]
  constructor
  · rintro ⟨⟨a, t, g, b0, -⟩, total, rfl⟩
    have width : gSize c < words dBits := by
      by_contra large
      rcases Nat.lt_or_eq_of_le (not_lt.mp large) with lt | eq
      · have := sizeSub_of_lt lt (by omega); omega
      · have := t.1
        rw [← wt, sizeSub_of_le (by omega) (by omega)] at this
        omega
    rw [sizeSub_of_le (by omega) (by omega)] at wa wt
    subst wa wt
    exact ⟨⟨width, a.2, t.2, g.2, b0.2⟩, by simp [layout]⟩
  · rintro ⟨⟨width, a, t, g, b0⟩, rfl⟩
    rw [sizeSub_of_le (by omega) (by omega)] at wa wt
    subst wa wt
    refine ⟨⟨⟨by omega, a⟩, ⟨by omega, t⟩, ⟨by omega, g⟩, ⟨by omega, b0⟩, by simp⟩, by omega, ?_⟩
    simp [layout]

theorem importField_eq (before after : ByteString) (small : n < 256 ^ size)
    (eq : str = before ++ (lsbFirst size n ++ after)) (start : offset = before.length) :
    importField str offset size = n := by
  rw [importField, eq, start, List.drop_left, List.take_left' (length_lsbFirst size n),
    ofLsbFirst_of_lt small]

/-- The sign bits of the first byte; the flags of the special forms are not among them. -/
theorem flag_bits (s t : Prop) [Decidable s] [Decidable t] :
    let flags : UInt8 := (if s then B_SIGN else 0) ||| (if t then T_SIGN else 0)
    (flags &&& B_SIGN ≠ 0 ↔ s) ∧ (flags &&& T_SIGN ≠ 0 ↔ t) ∧ flags &&& (IS_1 ||| IS_GEN) = 0 := by
  by_cases hs : s <;> by_cases ht : t <;> simp only [hs, ht, if_true, if_false] <;> decide

theorem length_layout (fit : FieldsFit k c) : (layout k c).length = 3 * k + 4 := by
  have := fit.width
  simp [layout]
  omega

theorem deserializeOnly_layout (pos : 0 < dBits) (le : dBits ≤ 1024)
    (fit : FieldsFit (words dBits) c) (as : 0 ≤ c.a) (gs : 0 ≤ c.g) (bs : 0 ≤ c.b0) :
    deserializeOnly (padded (layout (words dBits) c)) dBits = some c := by
  have kle : words dBits ≤ 32 := by unfold words; omega
  have guard : ¬(dBits = 0 ∨ dBits > BQFC_MAX_D_BITS) := by unfold BQFC_MAX_D_BITS; omega
  have guard' : ¬roundBits dBits > BQFC_MAX_D_BITS := by
    rw [roundBits_eq]; unfold BQFC_MAX_D_BITS; omega
  have large : roundBits dBits / 16 = 2 * words dBits := by rw [roundBits_eq]; omega
  have narrow : roundBits dBits / 32 = words dBits := by rw [roundBits_eq]; omega
  have width := fit.width
  obtain ⟨bSign, tSign, -⟩ := flag_bits (c.bSign = true) (c.t < 0)
  have gByte : (UInt8.ofNat (gSize c)).toNat = gSize c := by simp; omega
  simp only [deserializeOnly, if_neg guard, if_neg guard', large, narrow, padded, layout,
    List.cons_append, List.getD_cons_zero, List.getD_cons_succ, gByte, if_neg (not_le.mpr width),
    List.append_assoc]
  generalize (if c.bSign = true then B_SIGN else 0) ||| (if c.t < 0 then T_SIGN else 0) = flags at *
  generalize List.replicate (BQFC_FORM_SIZE - _) (0 : UInt8) = zeros
  generalize UInt8.ofNat (gSize c) = gByte'
  have readA := importField_eq [flags, gByte'] (lsbFirst (words dBits - gSize c) c.t.natAbs ++
    (lsbFirst (gSize c + 1) c.g.natAbs ++ (lsbFirst (gSize c + 1) c.b0.natAbs ++ zeros)))
    fit.a rfl rfl
  have readT := importField_eq (flags :: gByte' :: lsbFirst (2 * words dBits - gSize c) c.a.natAbs)
    (lsbFirst (gSize c + 1) c.g.natAbs ++ (lsbFirst (gSize c + 1) c.b0.natAbs ++ zeros))
    fit.t rfl rfl
  have readG := importField_eq (flags :: gByte' :: (lsbFirst (2 * words dBits - gSize c) c.a.natAbs ++
    lsbFirst (words dBits - gSize c) c.t.natAbs)) (lsbFirst (gSize c + 1) c.b0.natAbs ++ zeros)
    fit.g rfl rfl
  have readB := importField_eq (flags :: gByte' :: (lsbFirst (2 * words dBits - gSize c) c.a.natAbs ++
    (lsbFirst (words dBits - gSize c) c.t.natAbs ++ lsbFirst (gSize c + 1) c.g.natAbs))) zeros
    fit.b0 rfl rfl
  simp only [List.cons_append, List.nil_append, List.append_assoc, List.length_cons,
    List.length_nil, List.length_append, length_lsbFirst] at readA readT readG readB
  rw [show 0 + 1 + 1 = 2 from rfl] at readA
  rw [show 2 * words dBits - gSize c + 1 + 1 = 2 + (2 * words dBits - gSize c) by omega] at readT
  rw [show 2 * words dBits - gSize c + (words dBits - gSize c) + 1 + 1 =
    2 + (2 * words dBits - gSize c) + (words dBits - gSize c) by omega] at readG
  rw [show 2 * words dBits - gSize c + (words dBits - gSize c + (gSize c + 1)) + 1 + 1 =
    2 + (2 * words dBits - gSize c) + (words dBits - gSize c) + (gSize c + 1) by omega] at readB
  simp only [readA, readT, readG, readB, bSign, tSign, Int.natCast_natAbs, abs_of_nonneg as,
    abs_of_nonneg gs, abs_of_nonneg bs]
  congr
  · split <;> next sign => simp [abs_of_neg, abs_of_nonneg, sign, not_lt.mp]
  · simp

end ChiaVdf.Bqfc
