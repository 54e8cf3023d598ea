import ChiaVdf.FastAlgorithmCallback

/-! The slots of the intermediates: what the writers of `FastAlgorithmCallback` compute from an
exponent and what an `InterruptableProver` asks for. -/
namespace ChiaVdf

/-- The loop of `GetSegmentBucket`. -/
def segmentBucketLoop (length : ℕ) : ℕ :=
  if length > 1 then segmentBucketLoop (length >>> 2) + 1 else 0
termination_by length
decreasing_by simp [Nat.shiftRight_eq_div_pow]; omega

def getSegmentBucket (length : ℕ) : ℕ := segmentBucketLoop (length >>> 16)

/-- The parameters of a segment prover. -/
structure InterruptableProver where
  doneIterations : ℕ
  bucket : ℕ
  k : ℕ
  l : ℕ

namespace InterruptableProver

def ofSegment (start length : ℕ) : InterruptableProver where
  doneIterations := start
  bucket := getSegmentBucket length
  k := if length ≤ 1 <<< 16 then 10 else 12
  l := if length ≤ 1 <<< 18 then 1 else (length >>> 18) % 2 ^ 32

/-- The exponent of the `i`-th intermediate. -/
def exponent (i : ℕ) (p : InterruptableProver) : ℕ := (p.doneIterations + i * p.k * p.l) % 2 ^ 64

def getForm {F : Type} (i : ℕ) (weso : FastAlgorithmCallback F) (p : InterruptableProver) :
    Exec (Option F) := weso.getForm (p.exponent i) p.bucket

end InterruptableProver

/-- The length of the segments in a bucket. -/
def segmentSize (bucket : ℕ) : ℕ := 2 ^ (16 + 2 * bucket)

/-- The distance between the intermediates of a segment in a bucket. -/
def stride (bucket : ℕ) : ℕ := if bucket = 0 then 10 else 12 * 4 ^ (bucket - 1)

/-- The place in `forms` of an exponent of a bucket, without the faults. -/
def position (key : ℕ × ℕ) : ℕ :=
  FastAlgorithmCallback.bucketsBegin key.1 +
    SlidingWindow.slot kWindowSize (segmentSize key.1) (stride key.1)
      (FastAlgorithmCallback.bucketSize key.1) key.2

section Bucket

variable {bucket segments e e' : ℕ}

theorem segmentSize_pos : 0 < segmentSize bucket := Nat.two_pow_pos _

theorem stride_pos : 0 < stride bucket := by
  unfold stride
  split_ifs
  · norm_num
  · exact Nat.mul_pos (by norm_num) (Nat.pow_pos (by norm_num))

theorem segmentSize_succ (bucket : ℕ) : segmentSize (bucket + 1) = 2 ^ 18 * 4 ^ bucket := by
  rw [segmentSize, show (4 : ℕ) = 2 ^ 2 from rfl, ← pow_mul, ← pow_add]
  congr 1
  ring

theorem segmentBucketLoop_pow (bucket : ℕ) : segmentBucketLoop (4 ^ bucket) = bucket := by
  induction bucket with
  | zero => simp [segmentBucketLoop]
  | succ n ih =>
    have large : 4 ^ (n + 1) > 1 := Nat.one_lt_pow (Nat.succ_ne_zero n) (by norm_num)
    have rest : 4 ^ (n + 1) >>> 2 = 4 ^ n := by
      rw [Nat.shiftRight_eq_div_pow, pow_succ]
      exact Nat.mul_div_cancel _ (by norm_num)
    rw [segmentBucketLoop, if_pos large, rest, ih]

theorem getSegmentBucket_segmentSize (bucket : ℕ) : getSegmentBucket (segmentSize bucket) = bucket := by
  have rest : segmentSize bucket >>> 16 = 4 ^ bucket := by
    rw [segmentSize, Nat.shiftRight_eq_div_pow, pow_add, Nat.mul_div_cancel_left _ (by norm_num), pow_mul]
    norm_num
  rw [getSegmentBucket, rest, segmentBucketLoop_pow]

theorem segmentSize_le (bucket : ℕ) :
    segmentSize bucket ≤ FastAlgorithmCallback.bucketSize bucket * stride bucket := by
  cases bucket with
  | zero => decide
  | succ n =>
    have size : FastAlgorithmCallback.bucketSize (n + 1) = 21846 := rfl
    have step : stride (n + 1) = 12 * 4 ^ n := rfl
    rw [segmentSize_succ, size, step, ← Nat.mul_assoc]
    exact Nat.mul_le_mul_right _ (by norm_num)

theorem power2_eq (small : bucket ≤ 15) :
    FastAlgorithmCallback.power2 bucket = .done (segmentSize bucket) := by
  have inside : ¬16 + 2 * bucket ≥ 64 := by omega
  rw [FastAlgorithmCallback.power2, if_neg inside, segmentSize, Nat.one_shiftLeft]

theorem narrow_eq {n : ℕ} (small : n < 2 ^ 31) :
    (Int.bmod (n : ℤ) (2 ^ 32) % 2 ^ 64).toNat = n := by
  rw [Int.bmod_def]
  omega

theorem kl_eq (small : bucket ≤ 14) :
    FastAlgorithmCallback.kl bucket (segmentSize bucket) = stride bucket := by
  cases bucket with
  | zero => rfl
  | succ n =>
    have shifted : segmentSize (n + 1) >>> 18 = 4 ^ n := by
      rw [segmentSize_succ, Nat.shiftRight_eq_div_pow, Nat.mul_div_cancel_left _ (by norm_num)]
    have bound : 4 ^ n ≤ 4 ^ 13 := Nat.pow_le_pow_right (by norm_num) (by omega)
    rw [FastAlgorithmCallback.kl, if_neg (Nat.succ_ne_zero n), shifted,
      narrow_eq (by norm_num at bound; omega)]
    rfl

theorem bucketsBegin_succ (bucket : ℕ) : FastAlgorithmCallback.bucketsBegin (bucket + 1) =
    FastAlgorithmCallback.bucketsBegin bucket +
      kWindowSize * FastAlgorithmCallback.bucketSize bucket := by
  cases bucket with
  | zero => rfl
  | succ n =>
    rw [FastAlgorithmCallback.bucketsBegin, FastAlgorithmCallback.bucketSize,
      if_neg (Nat.succ_ne_zero n), Nat.mul_comm kWindowSize]

theorem bucketsBegin_eq (segments : ℕ) (positive : 1 ≤ segments) :
    FastAlgorithmCallback.bucketsBegin segments = FastAlgorithmCallback.formsCapacity segments := by
  induction segments, positive using Nat.le_induction with
  | base => rfl
  | succ n positive ih =>
    rw [bucketsBegin_succ, ih, FastAlgorithmCallback.formsCapacity, FastAlgorithmCallback.formsCapacity,
      FastAlgorithmCallback.bucketSize, if_neg (by omega), ← Nat.mul_add, Nat.add_assoc,
      ← Nat.mul_succ]
    congr 3
    omega

theorem bucketsBegin_mono : Monotone FastAlgorithmCallback.bucketsBegin :=
  monotone_nat_of_le_succ fun n => by rw [bucketsBegin_succ]; exact Nat.le_add_right _ _

theorem position_mem (bucket e : ℕ) :
    FastAlgorithmCallback.bucketsBegin bucket ≤ position (bucket, e) ∧
      position (bucket, e) < FastAlgorithmCallback.bucketsBegin (bucket + 1) := by
  have inside := SlidingWindow.slot_lt (e := e) (segmentSize_le bucket) segmentSize_pos
    (show 0 < kWindowSize by decide)
  rw [bucketsBegin_succ]
  exact ⟨Nat.le_add_right _ _, Nat.add_lt_add_left inside _⟩

theorem position_lt (inside : bucket < segments) :
    position (bucket, e) < FastAlgorithmCallback.formsCapacity segments := by
  rw [← bucketsBegin_eq segments (by omega)]
  exact (position_mem bucket e).2.trans_le (bucketsBegin_mono inside)

theorem bucket_eq_of_position {bucket' : ℕ} (same : position (bucket, e) = position (bucket', e')) :
    bucket = bucket' := by
  have mem := position_mem bucket e
  have mem' := position_mem bucket' e'
  rcases Nat.lt_trichotomy bucket bucket' with lt | equal | gt
  · have := bucketsBegin_mono (show bucket + 1 ≤ bucket' from lt)
    omega
  · exact equal
  · have := bucketsBegin_mono (show bucket' + 1 ≤ bucket from gt)
    omega

theorem getPosition_eq (small : bucket ≤ 14) (e : ℕ) :
    FastAlgorithmCallback.getPosition e bucket = .done (position (bucket, e)) := by
  have capacity : FastAlgorithmCallback.bucketsBegin 15 < 2 ^ 31 := by decide
  have below := (position_mem bucket e).2.trans_le (bucketsBegin_mono (show bucket + 1 ≤ 15 by omega))
  have room : ¬position (bucket, e) ≥ 2 ^ 31 := by omega
  rw [FastAlgorithmCallback.getPosition, power2_eq (by omega), Exec.done_bind, kl_eq small,
    if_neg stride_pos.ne']
  rw [position, SlidingWindow.slot, ← Nat.add_assoc] at room ⊢
  rw [if_neg room]

theorem formAt_eq (small : bucket ≤ 14) (inside : bucket < segments) (e : ℕ) :
    FastAlgorithmCallback.formAt e bucket segments = .done (position (bucket, e)) := by
  rw [FastAlgorithmCallback.formAt, getPosition_eq small, Exec.done_bind, if_pos (position_lt inside)]

/-- The exponents that have a slot. -/
def Kept (bucket e : ℕ) : Prop := e % segmentSize bucket % stride bucket = 0

instance (bucket e : ℕ) : Decidable (Kept bucket e) :=
  inferInstanceAs (Decidable (e % segmentSize bucket % stride bucket = 0))

theorem wants_eq (small : bucket ≤ 14) (e : ℕ) :
    FastAlgorithmCallback.wants e bucket = .done (decide (Kept bucket e)) := by
  rw [FastAlgorithmCallback.wants, power2_eq (by omega), Exec.done_bind, kl_eq small,
    if_neg stride_pos.ne']
  rfl

theorem eq_or_window_le (kept : Kept bucket e) (kept' : Kept bucket e')
    (same : position (bucket, e) = position (bucket, e')) (le : e ≤ e') :
    e = e' ∨ e + kWindowSize * segmentSize bucket ≤ e' :=
  SlidingWindow.eq_or_window_le (segmentSize_le bucket) segmentSize_pos kept kept'
    (Nat.add_left_cancel same) le

end Bucket

section Prover

variable {bucket s j : ℕ}

theorem bucket_ofSegment (s bucket : ℕ) :
    (InterruptableProver.ofSegment s (segmentSize bucket)).bucket = bucket :=
  getSegmentBucket_segmentSize bucket

/-- The prover goes through a segment with the stride of the writers. -/
theorem kl_ofSegment (small : bucket ≤ 14) (s : ℕ) :
    (InterruptableProver.ofSegment s (segmentSize bucket)).k *
      (InterruptableProver.ofSegment s (segmentSize bucket)).l = stride bucket := by
  cases bucket with
  | zero => rfl
  | succ n =>
    have long : ¬segmentSize (n + 1) ≤ 1 <<< 16 := by
      rw [segmentSize_succ]
      have := Nat.pow_pos (n := n) (show 0 < 4 by norm_num)
      norm_num
      omega
    have bound : 4 ^ n ≤ 4 ^ 13 := Nat.pow_le_pow_right (by norm_num) (by omega)
    have shifted : segmentSize (n + 1) >>> 18 = 4 ^ n := by
      rw [segmentSize_succ, Nat.shiftRight_eq_div_pow, Nat.mul_div_cancel_left _ (by norm_num)]
    simp only [InterruptableProver.ofSegment, if_neg long, shifted, stride, Nat.succ_ne_zero, if_false,
      Nat.add_sub_cancel]
    split_ifs with short
    · have one : 4 ^ n = 1 := by
        rw [segmentSize_succ] at short
        have := Nat.pow_pos (n := n) (show 0 < 4 by norm_num)
        norm_num at short
        omega
      rw [one]
    · rw [Nat.mod_eq_of_lt (bound.trans_lt (by norm_num))]

theorem exponent_ofSegment (small : bucket ≤ 14) (range : s + segmentSize bucket ≤ 2 ^ 64)
    (inside : j * stride bucket < segmentSize bucket) :
    (InterruptableProver.ofSegment s (segmentSize bucket)).exponent j = s + j * stride bucket := by
  rw [InterruptableProver.exponent, Nat.mul_assoc, kl_ofSegment small]
  exact Nat.mod_eq_of_lt (by simp only [InterruptableProver.ofSegment]; omega)

theorem kept_add (whole : segmentSize bucket ∣ s) (inside : j * stride bucket < segmentSize bucket) :
    Kept bucket (s + j * stride bucket) := by
  obtain ⟨t, rfl⟩ := whole
  rw [Kept, Nat.mul_add_mod, Nat.mod_eq_of_lt inside, Nat.mul_mod_left]

/-- What the proof of some segment of a bucket asks for. -/
def Needed (bucket e : ℕ) : Prop :=
  ∃ s j, segmentSize bucket ∣ s ∧
    j * (InterruptableProver.ofSegment s (segmentSize bucket)).k *
      (InterruptableProver.ofSegment s (segmentSize bucket)).l < segmentSize bucket ∧
    e = s + j * (InterruptableProver.ofSegment s (segmentSize bucket)).k *
      (InterruptableProver.ofSegment s (segmentSize bucket)).l

/-- The writers keep what the provers need. -/
theorem needed_iff_kept (small : bucket ≤ 14) (e : ℕ) : Needed bucket e ↔ Kept bucket e := by
  constructor
  · rintro ⟨s, j, whole, inside, rfl⟩
    rw [Nat.mul_assoc, kl_ofSegment small] at inside ⊢
    exact kept_add whole inside
  · intro kept
    have split := Nat.div_add_mod (e % segmentSize bucket) (stride bucket)
    rw [kept, Nat.add_zero, Nat.mul_comm] at split
    refine ⟨e / segmentSize bucket * segmentSize bucket, e % segmentSize bucket / stride bucket,
      Nat.dvd_mul_left _ _, ?_, ?_⟩
    · rw [Nat.mul_assoc, kl_ofSegment small, split]
      exact Nat.mod_lt _ segmentSize_pos
    · rw [Nat.mul_assoc, kl_ofSegment small, split, Nat.div_add_mod']

/-- Every slot is inside the array; needed exponents of a bucket that are less than a window apart
have different slots, and so have exponents of different buckets. -/
structure SeparateSlots (segments : ℕ) : Prop where
  inside : ∀ bucket < segments, ∀ e, ∃ pos, FastAlgorithmCallback.getPosition e bucket = .done pos ∧
    pos < FastAlgorithmCallback.formsCapacity segments
  injective : ∀ bucket < segments, ∀ s e e', segmentSize bucket ∣ s → Needed bucket e →
    Needed bucket e' → s ≤ e → s ≤ e' → e < s + kWindowSize * segmentSize bucket →
    e' < s + kWindowSize * segmentSize bucket →
    FastAlgorithmCallback.getPosition e bucket = FastAlgorithmCallback.getPosition e' bucket → e = e'
  apart : ∀ bucket < segments, ∀ bucket' < segments, bucket ≠ bucket' → ∀ e e',
    FastAlgorithmCallback.getPosition e bucket ≠ FastAlgorithmCallback.getPosition e' bucket'

/-- From bucket 15 on the stride does not fit into an `int`. -/
theorem getPosition_fifteen :
    FastAlgorithmCallback.getPosition (12 * 2 ^ 28) 15 = FastAlgorithmCallback.getPosition 0 15 := by
  decide +kernel

theorem needed_fifteen : Needed 15 0 ∧ Needed 15 (12 * 2 ^ 28) :=
  ⟨⟨0, 0, by decide +kernel⟩, ⟨0, 1, by decide +kernel⟩⟩

theorem separateSlots_iff (segments : ℕ) : SeparateSlots segments ↔ segments ≤ 15 := by
  constructor
  · intro separate
    by_contra many
    have same := separate.injective 15 (by omega) 0 (12 * 2 ^ 28) 0 (dvd_zero _) needed_fifteen.2
      needed_fifteen.1 (Nat.zero_le _) le_rfl (by decide +kernel) (by decide +kernel) getPosition_fifteen
    norm_num at same
  · intro few
    constructor
    case inside =>
      intro bucket lt e
      exact ⟨_, getPosition_eq (by omega) e, position_lt lt⟩
    case injective =>
      intro bucket lt s e e' _ needed needed' le le' near near' same
      rw [getPosition_eq (by omega), getPosition_eq (by omega)] at same
      have kept := (needed_iff_kept (by omega) e).mp needed
      have kept' := (needed_iff_kept (by omega) e').mp needed'
      exact SlidingWindow.slot_injective (segmentSize_le bucket) segmentSize_pos kept kept'
        (Nat.add_left_cancel (Exec.done.inj same)) (by omega) (by omega)
    case apart =>
      intro bucket lt bucket' lt' different e e' same
      rw [getPosition_eq (by omega), getPosition_eq (by omega)] at same
      exact different (bucket_eq_of_position (Exec.done.inj same))

end Prover

end ChiaVdf
