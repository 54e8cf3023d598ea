import ChiaVdf.BqfcCompress

/-! The encoding of forms as 100 bytes: every reduced form is written and comes back, and
what strict decoding lets through besides. -/
namespace ChiaVdf

namespace Bqfc

open ByteString

variable {d : Discriminant} {D : ℤ}

theorem length_padded (short : w.length ≤ BQFC_FORM_SIZE) : (padded w).length = BQFC_FORM_SIZE := by
  simp [padded]
  omega

theorem words_le (le : dBits ≤ BQFC_MAX_D_BITS) : words dBits ≤ 32 := by
  unfold BQFC_MAX_D_BITS at le
  unfold words
  omega

theorem length_padded_layout (le : dBits ≤ BQFC_MAX_D_BITS) (fit : FieldsFit (words dBits) c) :
    (padded (layout (words dBits) c)).length = BQFC_FORM_SIZE := by
  apply length_padded
  have := words_le le
  rw [length_layout fit, show BQFC_FORM_SIZE = 100 from rfl]
  omega

/-- The first byte tells the special forms from the others. -/
theorem padded_layout_flags (k : ℕ) (c : QfbC) :
    (padded (layout k c)).getD 0 0 &&& (IS_1 ||| IS_GEN) = 0 :=
  (flag_bits (c.bSign = true) (c.t < 0)).2.2

theorem getComprSize_ok (pos : 0 < dBits) (le : dBits ≤ BQFC_MAX_D_BITS) :
    ¬(getComprSize dBits ≤ 0 ∨ getComprSize dBits > BQFC_FORM_SIZE) := by
  have guard : ¬(dBits = 0 ∨ dBits > BQFC_MAX_D_BITS) := by omega
  have := words_le le
  unfold words at this
  rw [getComprSize, if_neg guard, show BQFC_FORM_SIZE = 100 from rfl]
  omega

theorem serialize_done (pos : 0 < dBits) (le : dBits ≤ BQFC_MAX_D_BITS)
    (common : ¬(b = 1 ∧ a ≤ 2)) : serialize a b dBits = .done (0, s) ↔
      ∃ c, compr a b = .done c ∧ FieldsFit (words dBits) c ∧ s = padded (layout (words dBits) c) := by
  rw [serialize, if_neg (getComprSize_ok pos le), if_neg common, Exec.bind_eq_done]
  constructor
  · rintro ⟨c, run, rest⟩
    obtain ⟨⟨ret, written⟩, only, rest⟩ := Exec.bind_eq_done.mp rest
    simp only [Exec.pure_eq, Exec.done.injEq, Prod.mk.injEq] at rest
    obtain ⟨rfl, rfl⟩ := rest
    obtain ⟨fit, rfl⟩ := (serializeOnly_done pos le).mp only
    exact ⟨c, run, fit, rfl⟩
  · rintro ⟨c, run, fit, rfl⟩
    exact ⟨c, run, by rw [(serializeOnly_done pos le).mpr ⟨fit, rfl⟩]; rfl⟩

theorem serialize_special (pos : 0 < dBits) (le : dBits ≤ BQFC_MAX_D_BITS) (special : a ≤ 2) :
    serialize a 1 dBits = .done (0, padded [if a = 2 then IS_GEN else IS_1]) := by
  rw [serialize, if_neg (getComprSize_ok pos le), if_pos ⟨rfl, special⟩]

/-- `b` of a pair is odd: otherwise four would divide the discriminant. -/
theorem Pair.odd (free : Squarefree D) (pair : Pair D a b) : b % 2 = 1 := by
  obtain ⟨j, hj⟩ := pair.disc
  rcases Int.emod_two_eq_zero_or_one b with even | odd
  · obtain ⟨i, rfl⟩ := Int.dvd_of_emod_eq_zero even
    have four : 2 * 2 ∣ D := ⟨i ^ 2 - a * j, by linear_combination -hj⟩
    obtain two | two := Int.isUnit_iff.mp (free 2 four) <;> omega
  · exact odd

theorem compr_self (a : ℤ) : compr a a = .done ⟨a, 0, 0, 0, false⟩ := by simp [compr]

/-- What `compr` makes of a pair is what `decompr` needs to get the pair back. -/
theorem decompr_compr (free : Squarefree D) (pair : Pair D a b) : ∃ c, compr a b = .done c ∧ 0 ≤ c.a ∧
    0 ≤ c.g ∧ 0 ≤ c.b0 ∧ ∀ strict, decompr D c strict = .done (some (a, b)) := by
  by_cases same : a = b
  · subst same
    exact ⟨_, compr_self a, pair.pos.le, le_rfl, le_rfl, fun _ => by simp [decompr]⟩
  have odd := pair.odd free
  have low := pair.low
  have high := pair.high
  have small : |b| < a := abs_lt.mpr ⟨low, by omega⟩
  have two : 2 ≤ a := by omega
  obtain ⟨c, run, cmp⟩ := compr_spec two small.le same
  have apos := cmp.a_pos two
  have gpos := cmp.g_pos
  refine ⟨c, run, apos.le, by omega, ?_, decompr_pair free two small
    ((dvd_mul_left a 4).trans pair.disc) cmp⟩
  rw [cmp.b0_eq]
  split
  · exact le_rfl
  · exact Int.ediv_nonneg (abs_nonneg b) apos.le

/-- Every pair that is encoded completely is decoded again. -/
theorem deserialize_serialize (pos : 0 < dBits) (le : dBits ≤ BQFC_MAX_D_BITS) (free : Squarefree D)
    (pair : Pair D a b) (run : serialize a b dBits = .done (0, s)) (strict : Bool) :
    deserialize D s dBits strict = .done (some (a, b)) := by
  have guard : ¬(dBits = 0 ∨ dBits > BQFC_MAX_D_BITS) := by omega
  by_cases special : b = 1 ∧ a ≤ 2
  · obtain ⟨rfl, a_le⟩ := special
    rw [serialize_special pos le a_le] at run
    obtain ⟨-, rfl⟩ := Prod.mk.inj (Exec.done.inj run)
    have apos := pair.pos
    rw [deserialize, if_neg guard, if_neg (by rw [length_padded (by simp [BQFC_FORM_SIZE])]; simp)]
    rcases (by omega : a = 1 ∨ a = 2) with rfl | rfl <;> rfl
  · obtain ⟨c, compressed, fit, rfl⟩ := (serialize_done pos le special).mp run
    obtain ⟨c', compressed', as, gs, bs, back⟩ := decompr_compr free pair
    obtain rfl : c = c' := Exec.done.inj (compressed.symm.trans compressed')
    have canon : verifyCanon a b (padded (layout (words dBits) c)) dBits = .done 0 := by
      simp [verifyCanon, run]
    rw [deserialize, if_neg guard, if_neg (by rw [length_padded_layout le fit]; simp),
      if_neg (by rw [padded_layout_flags]; simp), deserializeOnly_layout pos le fit as gs bs]
    simp [back strict, canon]

theorem gSize_spec (c : QfbC) (pos : 1 ≤ c.g) :
    256 ^ gSize c ≤ c.g.natAbs ∧ c.g.natAbs < 256 ^ (gSize c + 1) := by
  have bits : mpzSizeinbase2 c.g = c.g.natAbs.log2 + 1 := if_neg (by omega)
  constructor
  · rw [show (256 : ℕ) = 2 ^ 8 by norm_num, ← pow_mul]
    apply (Nat.pow_le_pow_right (by norm_num) _).trans (Nat.log2_self_le (by omega))
    unfold gSize
    omega
  · refine ((needed_le_iff _ _).mp ?_).2
    unfold gSize
    omega

theorem lt_pow_of_sq_lt {x : ℕ} (small : x * x < 256 ^ (2 * k)) : x < 256 ^ k := by
  rw [two_mul, pow_add] at small
  exact Nat.mul_self_lt_mul_self_iff.mp small

theorem lt_pow_sub {x g : ℕ} (low : 256 ^ i ≤ g) (small : x * g < 256 ^ j) (le : i ≤ j) :
    x < 256 ^ (j - i) := by
  have split : 256 ^ (j - i) * 256 ^ i = 256 ^ j := by rw [← pow_add, Nat.sub_add_cancel le]
  have : x * 256 ^ i ≤ x * g := Nat.mul_le_mul_left x low
  exact lt_of_mul_lt_mul_right (by omega) (Nat.zero_le (256 ^ i))

/-- Half the words of the discriminant for `a` are enough for all fields of a pair. -/
theorem Compressed.fieldsFit (cmp : Compressed a b c) (two : 2 ≤ a) (small : |b| ≤ a)
    (fits : a.natAbs < 256 ^ (2 * k)) : FieldsFit k c := by
  have apos := cmp.a_pos two
  have gpos := cmp.g_pos
  obtain ⟨g_low, g_high⟩ := gSize_spec c gpos
  have root : a.toNat.sqrt < 256 ^ k := by
    apply lt_pow_of_sq_lt
    have := Nat.sqrt_le a.toNat
    omega
  have t_small : c.t.natAbs * c.g.natAbs < 256 ^ k := by
    have := cmp.t_le two
    rw [Int.abs_eq_natAbs, Int.natAbs_mul] at this
    omega
  have t_pos : 1 ≤ c.t.natAbs := Int.natAbs_pos.mpr cmp.t_ne
  have width : gSize c < k := by
    have : 256 ^ gSize c < 256 ^ k :=
      lt_of_le_of_lt (g_low.trans (Nat.le_mul_of_pos_left _ t_pos)) t_small
    exact (Nat.pow_lt_pow_iff_right (by norm_num)).mp this
  have a_small : c.a.natAbs * c.g.natAbs < 256 ^ (2 * k) := by
    rw [← Int.natAbs_mul, cmp.a_eq]
    exact fits
  refine ⟨width, lt_pow_sub g_low a_small (by omega), lt_pow_sub g_low t_small width.le, g_high, ?_⟩
  rw [cmp.b0_eq]
  split
  · simp
  · have quotient : |b| / c.a ≤ c.g := by
      rw [Int.ediv_le_iff_le_mul apos]
      have := cmp.a_eq
      nlinarith
    have := Int.ediv_nonneg (abs_nonneg b) apos.le
    omega

theorem fieldsFit_self (kpos : 0 < k) (fits : a.natAbs < 256 ^ (2 * k)) :
    FieldsFit k ⟨a, 0, 0, 0, false⟩ := by
  constructor <;> simp [gSize, mpzSizeinbase2, kpos, fits]

theorem numBits_pos (n : ℤ) : 0 < numBits n := by
  unfold numBits mpzSizeinbase2
  split <;> omega

theorem words_pos (pos : 0 < dBits) : 0 < words dBits := by
  unfold words
  omega

theorem reduced_a_fits {f : Form} {D : ℤ} (red : f.Reduced) (disc : f.disc = D) (neg : D < 0) :
    f.a.natAbs < 256 ^ (2 * words (numBits D)) := by
  apply lt_pow_of_sq_lt
  have square := Reduced.three_sq_le red
  have bits : D.natAbs < 2 ^ numBits D := (natAbs_lt_iff_sizeinbase2_le (numBits_pos _)).mpr le_rfl
  have rounded : 2 ^ numBits D ≤ 256 ^ (2 * (2 * words (numBits D))) := by
    rw [show (256 : ℕ) = 2 ^ 8 by norm_num, ← pow_mul]
    apply Nat.pow_le_pow_right (by norm_num)
    unfold words
    omega
  rw [disc] at square
  have : f.a.natAbs * f.a.natAbs ≤ D.natAbs := by
    zify
    rw [abs_mul_abs_self, abs_of_neg neg]
    nlinarith [sq_nonneg f.a]
  omega

theorem pair_of_reduced {f : Form} (red : f.Reduced) (disc : f.disc = D) : Pair D f.a f.b where
  pos := red.pos
  low := red.1
  high := red.2.1
  disc := ⟨f.c, by unfold BinaryForm.disc at disc; linarith⟩

theorem reduced_fieldsFit {f : Form} (neg : D < 0) (free : Squarefree D) (red : f.Reduced) (disc : f.disc = D) :
    ∃ c, compr f.a f.b = .done c ∧ FieldsFit (words (numBits D)) c := by
  have fits := reduced_a_fits red disc neg
  have pair := pair_of_reduced red disc
  by_cases same : f.a = f.b
  · rw [← same]
    exact ⟨_, compr_self _, fieldsFit_self (words_pos (numBits_pos _)) fits⟩
  · have odd := pair.odd free
    have low := pair.low
    have high := pair.high
    have two : 2 ≤ f.a := by omega
    have small := red.abs_b_le
    obtain ⟨c, run, cmp⟩ := compr_spec two small same
    exact ⟨c, run, cmp.fieldsFit two small fits⟩

end Bqfc

section RoundTrip

open Bqfc

variable {d : Discriminant} {D : ℤ} {f : Form}

theorem serialize_reduced (neg : D < 0) (free : Squarefree D) (bits : numBits D ≤ BQFC_MAX_D_BITS)
    (red : f.Reduced) (disc : f.disc = D) :
    ∃ s, serialize f.a f.b (numBits D) = .done (0, s) ∧ s.length = BQFC_FORM_SIZE := by
  by_cases special : f.b = 1 ∧ f.a ≤ 2
  · rw [special.1]
    exact ⟨_, serialize_special (numBits_pos _) bits special.2,
      length_padded (by simp [BQFC_FORM_SIZE])⟩
  · obtain ⟨c, run, fit⟩ := reduced_fieldsFit neg free red disc
    exact ⟨_, (serialize_done (numBits_pos _) bits special).mpr ⟨c, run, fit, rfl⟩,
      length_padded_layout bits fit⟩

theorem serializeForm_eq (red : f.Reduced) {s : ByteString} {dBits : ℕ}
    (run : serialize f.a f.b dBits = .done (ret, s)) : serializeForm f dBits = .done s := by
  simp [serializeForm, Form.reduce_of_reduced red, run]

theorem fromAbd_reduced (f : ReducedForm d) : Form.fromAbd f.form.a f.form.b d.D = .done f.form := by
  rw [← f.disc, Form.fromAbd_eq_reduce f.reduced.pos, Form.reduce_of_reduced f.reduced]

theorem deserializeForm_eq (red : f.Reduced) (disc : f.disc = D) {s : ByteString} {strict : Bool}
    (run : deserialize D s (numBits D) strict = .done (some (f.a, f.b))) :
    deserializeForm D s strict = .done f := by
  subst disc
  simp [deserializeForm, run, Form.fromAbd_eq_reduce red.pos, Form.reduce_of_reduced red,
    Form.isReduced_of_reduced red]

theorem form_roundTrip (neg : D < 0) (free : Squarefree D) (bits : numBits D ≤ BQFC_MAX_D_BITS)
    (red : f.Reduced) (disc : f.disc = D) :
    ∃ s, serialize f.a f.b (numBits D) = .done (0, s) ∧ s.length = BQFC_FORM_SIZE ∧
      serializeForm f (numBits D) = .done s ∧ ∀ strict, deserializeForm D s strict = .done f := by
  obtain ⟨s, run, length⟩ := serialize_reduced neg free bits red disc
  refine ⟨s, run, length, serializeForm_eq red run, fun strict => ?_⟩
  exact deserializeForm_eq red disc
    (deserialize_serialize (numBits_pos _) bits free (pair_of_reduced red disc) run strict)

theorem reduced_roundTrip (bits : numBits d.D ≤ BQFC_MAX_D_BITS) (f : ReducedForm d) :
    ∃ s, serialize f.form.a f.form.b (numBits d.D) = .done (0, s) ∧ s.length = BQFC_FORM_SIZE ∧
      serializeForm f.form (numBits d.D) = .done s ∧
      ∀ strict, deserializeForm d.D s strict = .done f.form :=
  form_roundTrip d.D_neg d.squarefree bits f.reduced f.disc

/-- Every reduced form is written completely, its compressed fields fit the widths of the
format, and both ways of decoding return it. -/
theorem deserializeForm_serializeForm (d : Discriminant) (bits : numBits d.D ≤ BQFC_MAX_D_BITS)
    (f : ReducedForm d) :
    (∃ c, compr f.form.a f.form.b = .done c ∧ FieldsFit (words (numBits d.D)) c) ∧
    ∃ s, serialize f.form.a f.form.b (numBits d.D) = .done (0, s) ∧ s.length = BQFC_FORM_SIZE ∧
      serializeForm f.form (numBits d.D) = .done s ∧
      ∀ strict, deserializeForm d.D s strict = .done f.form :=
  ⟨reduced_fieldsFit d.D_neg d.squarefree f.reduced f.disc, reduced_roundTrip bits f⟩

/-- The round trip at a form with a negative `b`. -/
theorem deserializeForm_serializeForm_23 : ∃ s, serializeForm ⟨2, -1, 3⟩ 5 = .done s ∧
    ∀ strict, deserializeForm (-23) s strict = .done ⟨2, -1, 3⟩ := by
  obtain ⟨-, s, -, -, written, read⟩ := deserializeForm_serializeForm ⟨23, by norm_num, rfl⟩
    (by decide) ⟨⟨2, -1, 3⟩, by decide, rfl⟩
  exact ⟨s, written, read⟩

end RoundTrip

section Strict

open Bqfc

variable {d : Discriminant}

/-- The first byte announces the identity or the generator. -/
def Flagged (s : ByteString) : Prop := s.getD 0 0 &&& (IS_1 ||| IS_GEN) ≠ 0

instance (s : ByteString) : Decidable (Flagged s) := by unfold Flagged; infer_instance

/-- Strict decoding of `s`, where it succeeds, returns a form that is encoded as `s`. -/
def DecodesUniquely (d : Discriminant) (s : ByteString) : Prop :=
  ∀ f, deserializeForm d.D s true = .done f → serializeForm f (numBits d.D) = .done s

/-- What the encoder writes for the special forms; with `p = 7` the generator is not reduced. -/
def CanonicalFlag (d : Discriminant) (s : ByteString) : Prop :=
  s = padded [IS_1] ∨ s = padded [IS_GEN] ∧ d.p ≠ 7

/-- A form with `b` in the window of `a`, but not reduced, is encoded as `s`. -/
def EncodesUnreduced (d : Discriminant) (s : ByteString) : Prop :=
  ∃ f : Form, f.disc = d.D ∧ -f.a < f.b ∧ f.b ≤ f.a ∧ ¬f.Reduced ∧
    serialize f.a f.b (numBits d.D) = .done (0, s)

theorem pair_of_window {f : Form} (disc : f.disc = d.D) (low : -f.a < f.b) (high : f.b ≤ f.a) :
    Pair d.D f.a f.b where
  pos := by omega
  low := low
  high := high
  disc := ⟨f.c, by unfold BinaryForm.disc at disc; linarith⟩

theorem deserializeForm_pair {f : Form} {s : ByteString} {strict : Bool} (pos : 0 < f.a)
    (disc : f.disc = d.D) (run : deserialize d.D s (numBits d.D) strict = .done (some (f.a, f.b))) :
    ∃ g : ReducedForm d, deserializeForm d.D s strict = .done g.form ∧
      BinaryForm.ProperlyEquivalent f g.form := by
  obtain ⟨g, reduced, red, e⟩ := Form.reduce_spec pos (disc ▸ d.D_neg)
  refine ⟨⟨g, red, e.disc_eq.trans disc⟩, ?_, e⟩
  have eq : Form.fromAbd f.a f.b d.D = .done g := by
    rw [← disc, Form.fromAbd_eq_reduce pos, reduced]
  simp [deserializeForm, run, eq, Form.isReduced_of_reduced red]

theorem decodesUniquely_iff {s : ByteString} (f : ReducedForm d)
    (read : deserializeForm d.D s true = .done f.form) :
    DecodesUniquely d s ↔ serializeForm f.form (numBits d.D) = .done s := by
  constructor
  · exact fun unique => unique f.form read
  · intro written g run
    obtain rfl := Exec.done.inj (read.symm.trans run)
    exact written

theorem deserialize_flagged (bits : numBits d.D ≤ BQFC_MAX_D_BITS) {s : ByteString}
    (length : s.length = BQFC_FORM_SIZE) (flagged : Flagged s) (strict : Bool) :
    deserialize d.D s (numBits d.D) strict =
      .done (some (if s.getD 0 0 &&& IS_GEN ≠ 0 then 2 else 1, 1)) := by
  have pos := numBits_pos d.D
  rw [deserialize, if_neg (by omega), if_neg (by simp [length]),
    if_pos (show s.getD 0 0 &&& (IS_1 ||| IS_GEN) ≠ 0 from flagged)]

theorem serializeForm_special (bits : numBits d.D ≤ BQFC_MAX_D_BITS) (f : ReducedForm d)
    (b : f.form.b = 1) (a : f.form.a ≤ 2) : serializeForm f.form (numBits d.D) =
      .done (padded [if f.form.a = 2 then IS_GEN else IS_1]) :=
  serializeForm_eq f.reduced (b ▸ serialize_special (numBits_pos _) bits a)

theorem serializeForm_one (bits : numBits d.D ≤ BQFC_MAX_D_BITS) :
    serializeForm (1 : ReducedForm d).form (numBits d.D) = .done (padded [IS_1]) :=
  serializeForm_special bits 1 rfl one_le_two

theorem canonicalFlag_iff_gen {s : ByteString} (gen : s.getD 0 0 &&& IS_GEN ≠ 0) :
    CanonicalFlag d s ↔ padded [IS_GEN] = s ∧ d.p ≠ 7 := by
  constructor
  · rintro (rfl | ⟨rfl, p⟩)
    · exact absurd rfl gen
    · exact ⟨rfl, p⟩
  · rintro ⟨rfl, p⟩
    exact .inr ⟨rfl, p⟩

theorem canonicalFlag_iff_one {s : ByteString} (one : ¬s.getD 0 0 &&& IS_GEN ≠ 0) :
    CanonicalFlag d s ↔ padded [IS_1] = s := by
  constructor
  · rintro (rfl | ⟨rfl, -⟩)
    · rfl
    · exact absurd (by decide) one
  · rintro rfl
    exact .inl rfl

/-- The form `(2, 1, (p + 1) / 8)`. -/
theorem generator_disc (d : Discriminant) : (⟨2, 1, (d.p + 1) / 8⟩ : Form).disc = d.D := by
  have := d.mod8
  unfold BinaryForm.disc Discriminant.D
  dsimp only
  omega

theorem generator_reduced (d : Discriminant) (large : d.p ≠ 7) :
    (⟨2, 1, (d.p + 1) / 8⟩ : Form).Reduced := by
  have := d.mod8
  refine ⟨by norm_num, by norm_num, ?_, fun _ => by norm_num⟩
  change (2 : ℤ) ≤ (d.p + 1) / 8
  omega

theorem decodesUniquely_flagged (bits : numBits d.D ≤ BQFC_MAX_D_BITS) {s : ByteString}
    (length : s.length = BQFC_FORM_SIZE) (flagged : Flagged s) :
    DecodesUniquely d s ↔ CanonicalFlag d s := by
  have run := deserialize_flagged (d := d) bits length flagged true
  by_cases gen : s.getD 0 0 &&& IS_GEN ≠ 0
  · rw [if_pos gen] at run
    rw [canonicalFlag_iff_gen gen]
    by_cases small : d.p = 7
    · -- here the generator reduces to the identity
      obtain ⟨g, read, e⟩ := deserializeForm_pair (f := ⟨2, 1, (d.p + 1) / 8⟩) two_pos
        (generator_disc d) run
      have swapped : BinaryForm.ProperlyEquivalent ⟨2, 1, (d.p + 1) / 8⟩
          (1 : ReducedForm d).form := by
        refine ⟨0, -1, 1, 1, by norm_num, ?_⟩
        change (⟨1, 1, (d.p + 1) / 4⟩ : Form) = _
        simp [BinaryForm.act, BinaryForm.eval, small]
      have one : g.form = (1 : ReducedForm d).form :=
        g.reduced.unique (1 : ReducedForm d).reduced (e.symm.trans swapped)
      rw [decodesUniquely_iff g read, one, serializeForm_one bits]
      constructor
      · intro same
        obtain rfl := Exec.done.inj same
        exact absurd rfl gen
      · rintro ⟨-, large⟩
        exact absurd small large
    · have read := deserializeForm_eq (generator_reduced d small) (generator_disc d) run
      have unique := decodesUniquely_iff ⟨_, generator_reduced d small, generator_disc d⟩ read
      rw [unique, serializeForm_special bits _ rfl le_rfl]
      simp [small]
  · rw [if_neg gen] at run
    have read := deserializeForm_eq (1 : ReducedForm d).reduced (1 : ReducedForm d).disc run
    rw [canonicalFlag_iff_one gen, decodesUniquely_iff _ read, serializeForm_one bits]
    exact Exec.done.injEq _ _ |>.to_iff

/-- What a strictly decoded, unflagged string went through. -/
theorem deserialize_unflagged {s : ByteString} (plain : ¬Flagged s)
    (run : deserialize d.D s (numBits d.D) strict = .done (some (a, b))) :
    ∃ c, deserializeOnly s (numBits d.D) = some c ∧ decompr d.D c strict = .done (some (a, b)) ∧
      serialize a b (numBits d.D) = .done (0, s) := by
  unfold deserialize at run
  split at run
  · cases run
  split at run
  · cases run
  split at run
  · next flagged => exact absurd flagged plain
  split at run
  · cases run
  next c only =>
  obtain ⟨out, dec, rest⟩ := Exec.bind_eq_done.mp run
  split at rest
  · cases rest
  next a' b' =>
  obtain ⟨ret, canon, rest⟩ := Exec.bind_eq_done.mp rest
  split at rest
  · cases rest
  next zero =>
  obtain ⟨rfl, rfl⟩ := Prod.mk.inj (Option.some.inj (Exec.done.inj rest))
  refine ⟨c, only, dec, ?_⟩
  rw [verifyCanon] at canon
  obtain ⟨⟨ret', written⟩, ser, check⟩ := Exec.bind_eq_done.mp canon
  simp only [ne_eq, not_not] at zero
  subst zero
  dsimp only at check
  split at check
  · next nonzero => exact absurd (Exec.done.inj check) nonzero
  split at check
  · next zero same => simp only [ne_eq, not_not] at zero; rw [ser, zero, same]
  · simp at check

/-- An unflagged string that is decoded strictly encodes a pair of the discriminant. -/
theorem unflagged_pair (bits : numBits d.D ≤ BQFC_MAX_D_BITS) {s : ByteString} (plain : ¬Flagged s)
    {f : Form} (pos : 0 < f.a) (disc : f.disc = d.D)
    (run : deserialize d.D s (numBits d.D) true = .done (some (f.a, f.b))) :
    Pair d.D f.a f.b ∧ serialize f.a f.b (numBits d.D) = .done (0, s) := by
  obtain ⟨c, only, dec, ser⟩ := deserialize_unflagged plain run
  have inside := decompr_strict dec
  rw [abs_of_pos pos] at inside
  refine ⟨pair_of_window disc ?_ (abs_le.mp inside).2, ser⟩
  by_contra outside
  have opposite : f.b = -f.a := by have := (abs_le.mp inside).1; omega
  have divides : f.a ∣ d.D := by
    rw [← disc, BinaryForm.disc, opposite]
    exact ⟨f.a - 4 * f.c, by ring⟩
  rw [opposite] at ser dec
  have common : ¬(-f.a = 1 ∧ f.a ≤ 2) := by omega
  obtain ⟨c', compressed, fit, rfl⟩ := (serialize_done (numBits_pos _) bits common).mp ser
  obtain ⟨as, gs, bs, refused⟩ := opposite_refused pos divides compressed
  rw [deserializeOnly_layout (numBits_pos _) bits fit as gs bs] at only
  obtain rfl := Option.some.inj only
  rw [dec] at refused
  simp at refused
  omega

theorem decodesUniquely_unflagged (bits : numBits d.D ≤ BQFC_MAX_D_BITS) {s : ByteString}
    (plain : ¬Flagged s) : DecodesUniquely d s ↔ ¬EncodesUnreduced d s := by
  constructor
  · rintro unique ⟨f, disc, low, high, unreduced, ser⟩
    have pair := pair_of_window disc low high
    have run := deserialize_serialize (numBits_pos _) bits d.squarefree pair ser true
    obtain ⟨g, read, -⟩ := deserializeForm_pair pair.pos disc run
    obtain ⟨s', ser', -, written, -⟩ := reduced_roundTrip bits g
    obtain rfl := Exec.done.inj (written.symm.trans (unique g.form read))
    have back := deserialize_serialize (numBits_pos _) bits d.squarefree
      (pair_of_reduced g.reduced g.disc) ser' true
    obtain ⟨a, b⟩ := Prod.mk.inj (Option.some.inj (Exec.done.inj (run.symm.trans back)))
    have c : f.c = g.form.c := by
      have same := disc.trans g.disc.symm
      have pos := pair.pos
      simp only [BinaryForm.disc, a, b] at same
      rw [a] at pos
      nlinarith
    exact unreduced (BinaryForm.ext a b c ▸ g.reduced)
  · intro only f read
    obtain ⟨out, run, rest⟩ := Exec.bind_eq_done.mp read
    split at rest
    · cases rest
    next a b =>
    obtain ⟨g, from_abd, rest⟩ := Exec.bind_eq_done.mp rest
    obtain ⟨c, pos, disc, reduced⟩ := Form.fromAbd_done from_abd
    obtain ⟨pair, ser⟩ := unflagged_pair (f := ⟨a, b, c⟩) bits plain pos disc run
    have red : (⟨a, b, c⟩ : Form).Reduced := by
      by_contra unreduced
      exact only ⟨_, disc, pair.low, pair.high, unreduced, ser⟩
    obtain rfl := Exec.done.inj ((Form.reduce_of_reduced red).symm.trans reduced)
    rw [Form.isReduced_of_reduced red] at rest
    obtain rfl := Exec.done.inj rest
    exact serializeForm_eq red ser

/-- Strict decoding is a uniqueness gate for exactly the strings that are a canonical flag,
or carry no flag and do not encode an unreduced form. -/
theorem strict_decodesUniquely_iff (d : Discriminant) (bits : numBits d.D ≤ BQFC_MAX_D_BITS)
    (s : ByteString) (length : s.length = BQFC_FORM_SIZE) : DecodesUniquely d s ↔
      Flagged s ∧ CanonicalFlag d s ∨ ¬Flagged s ∧ ¬EncodesUnreduced d s := by
  by_cases flagged : Flagged s
  · simp [flagged, decodesUniquely_flagged bits length flagged]
  · simp [flagged, decodesUniquely_unflagged bits flagged]

/-- Two strings that strict decoding takes for the identity: what follows the flag is not
looked at, so the second is not what the identity is encoded as. -/
theorem strict_flag_twice :
    deserializeForm (-23) (padded [IS_1]) true = .done ⟨1, 1, 6⟩ ∧
    deserializeForm (-23) (padded [IS_1, 1]) true = .done ⟨1, 1, 6⟩ ∧
    serializeForm ⟨1, 1, 6⟩ (numBits (-23)) ≠ .done (padded [IS_1, 1]) ∧
    ¬DecodesUniquely ⟨23, by norm_num, rfl⟩ (padded [IS_1, 1]) := by
  have read : deserializeForm (-23) (padded [IS_1, 1]) true = .done ⟨1, 1, 6⟩ := by decide
  have other : serializeForm ⟨1, 1, 6⟩ (numBits (-23)) ≠ .done (padded [IS_1, 1]) := by decide
  exact ⟨by decide, read, other, fun unique => other (unique _ read)⟩

/-- The string of the unreduced form `(3, 1, 2)` is decoded strictly, to `(2, -1, 3)`. -/
theorem encodesUnreduced_23 :
    EncodesUnreduced ⟨23, by norm_num, rfl⟩ (padded [0, 0, 3, 0, 1, 1, 0]) := by
  refine ⟨⟨3, 1, 2⟩, rfl, by norm_num, by norm_num, by decide, ?_⟩
  refine (serialize_done (numBits_pos _) (by decide) (by norm_num)).mpr
    ⟨⟨3, 1, 1, 0, false⟩, ?_, ⟨by decide, by decide, by decide, by decide, by decide⟩, by decide⟩
  have root : mpzSqrt 3 = .done 1 := by
    have : Nat.sqrt 3 = 1 := by norm_num
    simp [mpzSqrt, this]
  simp [compr, root, mpzXgcdPartial_stop]

/-- The gate at the canonical string of the generator. -/
theorem strict_decodesUniquely_23 : DecodesUniquely ⟨23, by norm_num, rfl⟩ (padded [IS_GEN]) :=
  (strict_decodesUniquely_iff ⟨23, by norm_num, rfl⟩ (by decide) _ (by decide)).mpr
    (.inl ⟨by decide, .inr ⟨rfl, by decide⟩⟩)

end Strict

end ChiaVdf
