import ChiaVdf.HwProofPlan
import ChiaVdf.ProofChain

/-! The message of a finished proof: `WriteProof` of the software client builds it as one vector, `handle_proofs` of the
hardware client sends it piece by piece through one pair of buffers while it follows the links of the table. -/
namespace ChiaVdf

def HW_VDF_B_SIZE : ℕ := 33

/-- The hexadecimal digits of a byte, in lower case. -/
def hexByte (c : UInt8) : ByteString :=
  let digit (n : ℕ) : UInt8 := UInt8.ofNat (if n < 10 then 48 + n else 87 + n)
  [digit (c.toNat / 16), digit (c.toNat % 16)]

def bytesToStr (bytes : ByteString) : ByteString := bytes.flatMap hexByte

/-- The two writes of `WriteProof`. -/
def writeProof (iteration : ℕ) (result : ProofBytes) : ByteString :=
  let bytes := ByteString.msbFirst 8 iteration ++ ByteString.msbFirst 8 result.y.length ++ result.y ++
    [result.witnessType] ++ result.proof
  let strResult := bytesToStr bytes
  ByteString.msbFirst 4 strResult.length ++ strResult

/-- `struct vdf_proof`, with the bytes of the proof. -/
structure FinishedProof extends VdfProof where
  y : Vector UInt8 BQFC_FORM_SIZE
  proof : Vector UInt8 BQFC_FORM_SIZE
  B : Vector UInt8 HW_VDF_B_SIZE

namespace HwMessage

/-- `memcpy` of `src` into an array. -/
def blit (buf : ByteString) (pos : ℕ) (src : ByteString) : Exec ByteString :=
  if pos + src.length ≤ buf.length then .done (buf.take pos ++ src ++ buf.drop (pos + src.length))
  else .fault .outOfBounds

/-- The loop of `tl_enc_hex`. Each `snprintf` writes two digits and a zero. -/
def hexLoop : ByteString → ℕ → ByteString → Exec ByteString
  | out, _, [] => .done out
  | out, pos, c :: data => do
    let out ← blit out pos (hexByte c ++ [0])
    hexLoop out (pos + 2) data

def tlEncHex (outData : ByteString) (pos : ℕ) (data : ByteString) (size : ℕ) : Exec ByteString :=
  if size ≤ data.length then hexLoop outData pos (data.take size) else .fault .outOfBounds

/-- `write_data`. -/
def writeData (buf : ByteString) (size : ℕ) : Exec ByteString :=
  if size ≤ buf.length then .done (buf.take size) else .fault .outOfBounds

def proofAt (proofs : List FinishedProof) (idx : ℕ) : Exec FinishedProof :=
  match proofs[idx]? with
  | some proof => .done proof
  | none => .fault .outOfBounds

/-- `sizeof(data)` and `sizeof(tl_data)` of `handle_proofs`, and `sizeof(vdf_proof_segm)`. -/
def dataSize : ℕ := 8 + 8 + 1 + BQFC_FORM_SIZE * 2
def tlDataSize : ℕ := dataSize * 2 + 5
def segmSize : ℕ := 8 + HW_VDF_B_SIZE + BQFC_FORM_SIZE

/-- The inner loop of `handle_proofs`. -/
def segmLoop (proofs : List FinishedProof) : ℕ → FinishedProof → ByteString → ByteString → Exec (List ByteString)
  | 0, _, _, _ => .done []
  | i + 1, proof, data, tlData => do
    let proof ← proofAt proofs proof.prev
    let data ← blit data 0 (ByteString.msbFirst 8 proof.segIters)
    let data ← blit data 8 proof.B.toList
    let data ← blit data (8 + HW_VDF_B_SIZE) proof.proof.toList
    let tlData ← tlEncHex tlData 0 data segmSize
    let write ← writeData tlData (segmSize * 2)
    let writes ← segmLoop proofs i proof data tlData
    return write :: writes

/-- The body of the outer loop, with the writes it makes. The array `data` is not initialized. -/
def sendProof (proofs : List FinishedProof) (data : Vector UInt8 dataSize) (i : ℕ) (proof : FinishedProof) :
    Exec (List ByteString) := do
  let data ← blit data.toList 0 (ByteString.msbFirst 8 proof.iters)
  let data ← blit data 8 (ByteString.msbFirst 8 BQFC_FORM_SIZE)
  let data ← blit data 16 proof.y.toList
  let data ← blit data (16 + BQFC_FORM_SIZE) [UInt8.ofNat i]
  let data ← blit data (17 + BQFC_FORM_SIZE) proof.proof.toList
  let tlData ← tlEncHex (List.replicate tlDataSize 0) 4 data dataSize
  let tlData ← blit tlData 0 (ByteString.msbFirst 4 ((dataSize + i * segmSize) * 2))
  let write ← writeData tlData (tlDataSize - 1)
  let writes ← segmLoop proofs i proof data tlData
  return write :: writes

/-- The inner loop of `hw_retrieve_proof`: how many segments come before, if all of them are done. -/
def countPrev (proofs : List FinishedProof) : ℕ → ℕ → Exec (Option ℕ)
  | 0, _ => .diverged
  | fuel + 1, j =>
    if j = HW_VDF_PROOF_NONE then .done (some 0)
    else do
      let proof ← proofAt proofs j
      if proof.has HW_VDF_PROOF_FLAG_DONE = false then .done none
      else do
        let cnt ← countPrev proofs fuel proof.prev
        return cnt.map (· + 1)

/-- `hw_retrieve_proof`: the first requested proof whose segments are all done, their number, and the list without
it. -/
def retrieveProof (proofs : List FinishedProof) (fuel : ℕ) : List ℕ → Exec (Option (ℕ × ℕ × List ℕ))
  | [] => .done none
  | idx :: doneProofs => do
    let proof ← proofAt proofs idx
    match ← countPrev proofs fuel proof.prev with
    | some cnt => .done (some (cnt, idx, doneProofs))
    | none => do
      let found ← retrieveProof proofs fuel doneProofs
      return found.map fun next => (next.1, next.2.1, idx :: next.2.2)

/-- The writes of `handle_proofs` for every proof that it retrieves. -/
def handleProofs (proofs : List FinishedProof) (data : ℕ → Vector UInt8 dataSize) (links : ℕ) :
    ℕ → List ℕ → Exec (List (ℕ × List ByteString))
  | 0, _ => .diverged
  | fuel + 1, doneProofs => do
    match ← retrieveProof proofs links doneProofs with
    | none => .done []
    | some (i, idx, doneProofs) => do
      let proof ← proofAt proofs idx
      let writes ← sendProof proofs (data fuel) i proof
      let rest ← handleProofs proofs data links fuel doneProofs
      return (idx, writes) :: rest

section Buffers

variable {before after src data : ByteString}

theorem blit_append (before after src : ByteString) (fits : src.length ≤ after.length) :
    blit (before ++ after) before.length src = .done (before ++ src ++ after.drop src.length) := by
  rw [blit, if_pos (by rw [List.length_append]; omega), List.take_left, List.drop_append]
  simp

theorem blit_at {front : ByteString} {offset size : ℕ} (buf src : ByteString) (start : front.length = offset)
    (length : src.length = size) (fits : offset + size ≤ buf.length) :
    blit (front ++ buf.drop offset) offset src = .done ((front ++ src) ++ buf.drop (offset + size)) := by
  have written := blit_append front (buf.drop offset) src (by rw [List.length_drop]; omega)
  rwa [start, length, List.drop_drop] at written

@[simp] theorem length_hexByte (c : UInt8) : (hexByte c).length = 2 := rfl

theorem length_bytesToStr (bytes : ByteString) : (bytesToStr bytes).length = 2 * bytes.length := by
  induction bytes with
  | nil => rfl
  | cons c bytes ih =>
    simp only [bytesToStr, List.flatMap_cons, List.length_append, length_hexByte, List.length_cons] at ih ⊢
    omega

theorem bytesToStr_append (a b : ByteString) : bytesToStr (a ++ b) = bytesToStr a ++ bytesToStr b :=
  List.flatMap_append

/-- The digits stand behind what the buffer began with; the zero behind them is the last thing written. -/
theorem hexLoop_append (data before after : ByteString) (fits : 2 * data.length < after.length) :
    ∃ rest, hexLoop (before ++ after) before.length data = .done (before ++ bytesToStr data ++ rest) ∧
      rest.length + 2 * data.length = after.length := by
  induction data generalizing before after with
  | nil => exact ⟨after, by simp [hexLoop, bytesToStr], by simp⟩
  | cons c data ih =>
    rw [List.length_cons] at fits
    have step := blit_append before after (hexByte c ++ [0]) (by simp; omega)
    have shape : before ++ (hexByte c ++ [0]) ++ after.drop (hexByte c ++ [0]).length =
        (before ++ hexByte c) ++ (0 :: after.drop 3) := by simp
    obtain ⟨rest, run, length⟩ := ih (before ++ hexByte c) (0 :: after.drop 3) (by simp; omega)
    refine ⟨rest, ?_, ?_⟩
    · rw [hexLoop, step, Exec.done_bind, shape]
      rw [List.length_append, length_hexByte] at run
      rw [run]
      simp [bytesToStr]
    · simp at length ⊢
      omega

end Buffers

/-- The predecessors of an entry, from the nearest one on. -/
inductive Preds (proofs : List FinishedProof) : FinishedProof → List FinishedProof → Prop where
  | first {p : FinishedProof} : p.prev = HW_VDF_PROOF_NONE → Preds proofs p []
  | link {p q : FinishedProof} {l : List FinishedProof} : p.prev ≠ HW_VDF_PROOF_NONE → proofs[p.prev]? = some q →
      Preds proofs q l → Preds proofs p (q :: l)

/-- What a segment adds to a proof. -/
def segmBytes (proof : FinishedProof) : ByteString :=
  ByteString.msbFirst 8 proof.segIters ++ proof.B.toList ++ proof.proof.toList

/-- The proof that a chain stands for. -/
def chainProof (proof : FinishedProof) (l : List FinishedProof) : ProofBytes where
  y := proof.y.toList
  proof := proof.proof.toList ++ l.flatMap segmBytes
  witnessType := UInt8.ofNat l.length

section Message

variable {proofs : List FinishedProof} {p q : FinishedProof} {l : List FinishedProof} {data tlData : ByteString}

@[simp] theorem length_segmBytes (q : FinishedProof) : (segmBytes q).length = segmSize := by
  simp [segmBytes, segmSize, Nat.add_assoc]

theorem length_flatMap_segmBytes (l : List FinishedProof) : (l.flatMap segmBytes).length = segmSize * l.length := by
  induction l with
  | nil => rfl
  | cons q l ih => rw [List.flatMap_cons, List.length_append, ih, length_segmBytes, List.length_cons]; ring

theorem proofAt_done {idx : ℕ} (entry : proofs[idx]? = some p) : proofAt proofs idx = .done p := by
  simp only [proofAt, entry]

theorem encode_front (bytes data tlData : ByteString) (front : bytes.length = segmSize)
    (large : tlData.length = tlDataSize) : ∃ tlData', tlEncHex tlData 0 (bytes ++ data) segmSize = .done tlData' ∧
      writeData tlData' (segmSize * 2) = .done (bytesToStr bytes) ∧ tlData'.length = tlDataSize := by
  have sizes : tlDataSize = 439 ∧ segmSize = 141 := ⟨rfl, rfl⟩
  have digits := length_bytesToStr bytes
  obtain ⟨rest, run, length⟩ := hexLoop_append bytes [] tlData (by omega)
  rw [List.nil_append, List.length_nil, List.nil_append] at run
  refine ⟨bytesToStr bytes ++ rest, ?_, ?_, ?_⟩
  · rw [tlEncHex, if_pos (by rw [List.length_append]; omega), ← front, List.take_left, run]
  · have enough : segmSize * 2 ≤ (bytesToStr bytes ++ rest).length := by
      rw [List.length_append]
      omega
    have exactly : segmSize * 2 = (bytesToStr bytes).length := by omega
    rw [writeData, if_pos enough, exactly, List.take_left]
  · rw [List.length_append]
    omega

theorem fill_segment (q : FinishedProof) (large : data.length = dataSize) :
    ∃ rest, (do
        let data ← blit data 0 (ByteString.msbFirst 8 q.segIters)
        let data ← blit data 8 q.B.toList
        blit data (8 + HW_VDF_B_SIZE) q.proof.toList) = .done (segmBytes q ++ rest) ∧
      (segmBytes q ++ rest).length = dataSize := by
  have sizes : dataSize = 217 ∧ HW_VDF_B_SIZE = 33 ∧ BQFC_FORM_SIZE = 100 := ⟨rfl, rfl, rfl⟩
  have first : blit data 0 (ByteString.msbFirst 8 q.segIters) =
      .done (ByteString.msbFirst 8 q.segIters ++ data.drop 8) :=
    @blit_at [] 0 8 data _ rfl (ByteString.length_msbFirst _ _) (by omega)
  have second := blit_at data q.B.toList (ByteString.length_msbFirst 8 q.segIters) Vector.length_toList (by omega)
  have ends : (ByteString.msbFirst 8 q.segIters ++ q.B.toList).length = 8 + HW_VDF_B_SIZE := by simp
  have third := blit_at data q.proof.toList ends Vector.length_toList (by omega)
  rw [first, Exec.done_bind, second, Exec.done_bind, third]
  refine ⟨_, rfl, ?_⟩
  rw [List.length_append, length_segmBytes, List.length_drop, large, segmSize]
  omega

/-- The pieces after the first one are the segments in the order of the links. -/
theorem segmLoop_spec (chain : Preds proofs p l) (large : data.length = dataSize)
    (room : tlData.length = tlDataSize) : ∃ writes, segmLoop proofs l.length p data tlData = .done writes ∧
      writes.flatten = bytesToStr (l.flatMap segmBytes) := by
  induction chain generalizing data tlData with
  | first root => exact ⟨[], rfl, rfl⟩
  | @link p q l linked entry chain ih =>
    obtain ⟨rest, filled, large'⟩ := fill_segment q large
    obtain ⟨tlData', encoded, written, room'⟩ := encode_front (segmBytes q) rest tlData (length_segmBytes q) room
    obtain ⟨writes, run, bytes⟩ := ih large' room'
    refine ⟨bytesToStr (segmBytes q) :: writes, ?_, ?_⟩
    · obtain ⟨data1, one, filled⟩ := Exec.bind_eq_done.mp filled
      obtain ⟨data2, two, filled⟩ := Exec.bind_eq_done.mp filled
      simp only [List.length_cons, segmLoop, proofAt_done entry, Exec.done_bind, one, two, filled, encoded, written,
        run, Exec.pure_eq]
    · rw [List.flatten_cons, bytes, List.flatMap_cons, bytesToStr_append]

/-- The data of the last segment. -/
def headBytes (proof : FinishedProof) (i : ℕ) : ByteString :=
  ByteString.msbFirst 8 proof.iters ++ ByteString.msbFirst 8 BQFC_FORM_SIZE ++ proof.y.toList ++ [UInt8.ofNat i] ++
    proof.proof.toList

theorem length_headBytes (p : FinishedProof) (i : ℕ) : (headBytes p i).length = dataSize := by
  simp [headBytes, dataSize]
  omega

theorem fill_head (p : FinishedProof) (i : ℕ) (data : Vector UInt8 dataSize) : (do
    let data ← blit data.toList 0 (ByteString.msbFirst 8 p.iters)
    let data ← blit data 8 (ByteString.msbFirst 8 BQFC_FORM_SIZE)
    let data ← blit data 16 p.y.toList
    let data ← blit data (16 + BQFC_FORM_SIZE) [UInt8.ofNat i]
    blit data (17 + BQFC_FORM_SIZE) p.proof.toList) = .done (headBytes p i) := by
  have sizes : dataSize = 217 ∧ BQFC_FORM_SIZE = 100 := ⟨rfl, rfl⟩
  have large : data.toList.length = dataSize := Vector.length_toList
  generalize data.toList = data at *
  have first : blit data 0 (ByteString.msbFirst 8 p.iters) = .done (ByteString.msbFirst 8 p.iters ++ data.drop 8) :=
    @blit_at [] 0 8 data _ rfl (ByteString.length_msbFirst _ _) (by omega)
  have second := blit_at data (ByteString.msbFirst 8 BQFC_FORM_SIZE) (ByteString.length_msbFirst 8 p.iters)
    (ByteString.length_msbFirst _ _) (by omega)
  have secondEnd : (ByteString.msbFirst 8 p.iters ++ ByteString.msbFirst 8 BQFC_FORM_SIZE).length = 16 := by simp
  have third := blit_at data p.y.toList secondEnd Vector.length_toList (by omega)
  have thirdEnd : (ByteString.msbFirst 8 p.iters ++ ByteString.msbFirst 8 BQFC_FORM_SIZE ++ p.y.toList).length =
      16 + BQFC_FORM_SIZE := by
    rw [List.length_append, secondEnd, Vector.length_toList]
  have fourth := blit_at data [UInt8.ofNat i] thirdEnd List.length_singleton (by omega)
  have fourthEnd : (ByteString.msbFirst 8 p.iters ++ ByteString.msbFirst 8 BQFC_FORM_SIZE ++ p.y.toList ++
      [UInt8.ofNat i]).length = 17 + BQFC_FORM_SIZE := by
    rw [List.length_append, thirdEnd, List.length_singleton]
    omega
  have fifth := blit_at data p.proof.toList fourthEnd Vector.length_toList (by omega)
  have next : 16 + BQFC_FORM_SIZE + 1 = 17 + BQFC_FORM_SIZE := by omega
  rw [next] at fourth
  rw [first, Exec.done_bind, second, Exec.done_bind, third, Exec.done_bind, fourth, Exec.done_bind, fifth]
  have none : data.drop (17 + BQFC_FORM_SIZE + BQFC_FORM_SIZE) = [] := List.drop_eq_nil_of_le (by omega)
  rw [none, List.append_nil, headBytes]

theorem encode_head (bytes : ByteString) (whole : bytes.length = dataSize) (n : ℕ) :
    ∃ tlData tlData', tlEncHex (List.replicate tlDataSize 0) 4 bytes dataSize = .done tlData ∧
      blit tlData 0 (ByteString.msbFirst 4 n) = .done tlData' ∧
      writeData tlData' (tlDataSize - 1) = .done (ByteString.msbFirst 4 n ++ bytesToStr bytes) ∧
      tlData'.length = tlDataSize := by
  have sizes : tlDataSize = 439 ∧ dataSize = 217 := ⟨rfl, rfl⟩
  have digits := length_bytesToStr bytes
  obtain ⟨front, after, zeros, four, more⟩ : ∃ front after : ByteString,
      List.replicate tlDataSize (0 : UInt8) = front ++ after ∧ front.length = 4 ∧ after.length = 435 :=
    ⟨_, _, (List.take_append_drop 4 _).symm, by rw [List.length_take, List.length_replicate]; omega,
      by rw [List.length_drop, List.length_replicate]; omega⟩
  obtain ⟨rest, run, length⟩ := hexLoop_append bytes front after (by omega)
  rw [← zeros, four] at run
  have prefixed := blit_append [] (front ++ (bytesToStr bytes ++ rest)) (ByteString.msbFirst 4 n)
    (by rw [ByteString.length_msbFirst, List.length_append]; omega)
  rw [List.nil_append, List.length_nil, List.nil_append, ByteString.length_msbFirst, List.drop_left' four] at prefixed
  refine ⟨_, _, ?_, prefixed, ?_, ?_⟩
  · rw [tlEncHex, if_pos whole.ge, ← whole, List.take_length, run, List.append_assoc]
  · have exactly : tlDataSize - 1 = (ByteString.msbFirst 4 n ++ bytesToStr bytes).length := by
      rw [List.length_append, ByteString.length_msbFirst]
      omega
    rw [← List.append_assoc, writeData, exactly, if_pos (by simp), List.take_left]
  · simp
    omega

/-- The pieces make up the length of the whole message, the data of the last segment and the segments before it. -/
theorem sendProof_spec (chain : Preds proofs p l) (data : Vector UInt8 dataSize) :
    ∃ writes, sendProof proofs data l.length p = .done writes ∧
      writes.flatten = ByteString.msbFirst 4 ((dataSize + l.length * segmSize) * 2) ++
        bytesToStr (headBytes p l.length ++ l.flatMap segmBytes) := by
  obtain ⟨data1, one, rest⟩ := Exec.bind_eq_done.mp (fill_head p l.length data)
  obtain ⟨data2, two, rest⟩ := Exec.bind_eq_done.mp rest
  obtain ⟨data3, three, rest⟩ := Exec.bind_eq_done.mp rest
  obtain ⟨data4, four, five⟩ := Exec.bind_eq_done.mp rest
  obtain ⟨tlData, tlData', encoded, prefixed, written, room⟩ :=
    encode_head (headBytes p l.length) (length_headBytes p l.length) ((dataSize + l.length * segmSize) * 2)
  obtain ⟨writes, run, bytes⟩ := segmLoop_spec chain (length_headBytes p l.length) room
  refine ⟨(ByteString.msbFirst 4 ((dataSize + l.length * segmSize) * 2) ++ bytesToStr (headBytes p l.length)) :: writes,
    ?_, ?_⟩
  · simp only [sendProof, one, two, three, four, five, encoded, prefixed, written, run, Exec.done_bind, Exec.pure_eq]
  · rw [List.flatten_cons, bytes, bytesToStr_append, List.append_assoc]

/-- Both clients send the same bytes. -/
theorem writeProof_chainProof (p : FinishedProof) (l : List FinishedProof) : writeProof p.iters (chainProof p l) =
    ByteString.msbFirst 4 ((dataSize + l.length * segmSize) * 2) ++
      bytesToStr (headBytes p l.length ++ l.flatMap segmBytes) := by
  have length : (headBytes p l.length ++ l.flatMap segmBytes).length = dataSize + l.length * segmSize := by
    rw [List.length_append, length_headBytes, length_flatMap_segmBytes, mul_comm]
  have shape : ByteString.msbFirst 8 p.iters ++ ByteString.msbFirst 8 (chainProof p l).y.length ++
      (chainProof p l).y ++ [(chainProof p l).witnessType] ++ (chainProof p l).proof =
      headBytes p l.length ++ l.flatMap segmBytes := by
    simp [chainProof, headBytes]
  simp only [writeProof, shape, length_bytesToStr, length]
  rw [mul_comm 2]

/-- The number in front has 32 bits and counts the digits behind it. -/
theorem length_in_front (p : FinishedProof) (l : List FinishedProof) (short : l.length ≤ 63) :
    ∃ digits : ByteString, writeProof p.iters (chainProof p l) = ByteString.msbFirst 4 digits.length ++ digits ∧
      digits.length < 2 ^ 32 := by
  refine ⟨bytesToStr (headBytes p l.length ++ l.flatMap segmBytes), ?_, ?_⟩
  · rw [writeProof_chainProof, length_bytesToStr, List.length_append, length_headBytes, length_flatMap_segmBytes]
    congr 2
    ring
  · have sizes : dataSize = 217 ∧ segmSize = 141 := ⟨rfl, rfl⟩
    rw [length_bytesToStr, List.length_append, length_headBytes, length_flatMap_segmBytes, sizes.1, sizes.2]
    omega

/-- All segments before an entry are done. -/
def Done (l : List FinishedProof) : Prop := ∀ q ∈ l, q.has HW_VDF_PROOF_FLAG_DONE = true

instance (l : List FinishedProof) : Decidable (Done l) := inferInstanceAs (Decidable (∀ q ∈ l, _))

/-- An entry with its predecessors, of which there are at most 63. -/
structure Chained (proofs : List FinishedProof) (idx : ℕ) (p : FinishedProof) (l : List FinishedProof) : Prop where
  entry : proofs[idx]? = some p
  preds : Preds proofs p l
  short : l.length ≤ 63

theorem Preds.unique {l' : List FinishedProof} (chain : Preds proofs p l) (chain' : Preds proofs p l') : l = l' := by
  induction chain generalizing l' with
  | first root =>
    cases chain' with
    | first => rfl
    | link linked => exact absurd root linked
  | link linked entry chain ih =>
    cases chain' with
    | first root => exact absurd root linked
    | link linked' entry' rest =>
      obtain rfl := Option.some.inj (entry.symm.trans entry')
      rw [ih rest]

theorem countPrev_spec (chain : Preds proofs p l) (fuel : ℕ) (enough : l.length < fuel) :
    countPrev proofs fuel p.prev = .done (if Done l then some l.length else none) := by
  induction chain generalizing fuel with
  | first root =>
    obtain ⟨fuel, rfl⟩ : ∃ less, fuel = less + 1 := ⟨fuel - 1, by omega⟩
    simp [countPrev, root, Done]
  | @link p q l linked entry chain ih =>
    obtain ⟨fuel, rfl⟩ : ∃ less, fuel = less + 1 := ⟨fuel - 1, by omega⟩
    rw [countPrev, if_neg linked, proofAt_done entry, Exec.done_bind]
    by_cases done : q.has HW_VDF_PROOF_FLAG_DONE = false
    · have open_end : ¬Done (q :: l) := fun all => by
        have := all q List.mem_cons_self
        rw [done] at this
        cases this
      rw [if_pos done, if_neg open_end]
    · have same : Done (q :: l) ↔ Done l := by
        simp only [Done, List.mem_cons, forall_eq_or_imp]
        exact and_iff_right (by simpa using done)
      rw [if_neg done, ih fuel (by simpa using enough), Exec.done_bind, Exec.pure_eq]
      by_cases all : Done l
      · simp [same, all]
      · simp [same, all]

theorem retrieveProof_spec (links : ℕ) (enough : 63 < links) (doneProofs : List ℕ)
    (chains : ∀ idx ∈ doneProofs, ∃ p l, Chained proofs idx p l) :
    (retrieveProof proofs links doneProofs = .done none ∧
      ∀ idx ∈ doneProofs, ∀ p l, Chained proofs idx p l → ¬Done l) ∨
    ∃ before idx after p l, doneProofs = before ++ idx :: after ∧ Chained proofs idx p l ∧ Done l ∧
      retrieveProof proofs links doneProofs = .done (some (l.length, idx, before ++ after)) := by
  induction doneProofs with
  | nil => exact .inl ⟨rfl, by simp⟩
  | cons idx doneProofs ih =>
    obtain ⟨p, l, chained⟩ := chains idx List.mem_cons_self
    have count := countPrev_spec chained.preds links (by have := chained.short; omega)
    by_cases all : Done l
    · rw [if_pos all] at count
      refine .inr ⟨[], idx, doneProofs, p, l, rfl, chained, all, ?_⟩
      simp only [retrieveProof, proofAt_done chained.entry, Exec.done_bind, count, List.nil_append]
    · rw [if_neg all] at count
      have step : retrieveProof proofs links (idx :: doneProofs) = do
          let found ← retrieveProof proofs links doneProofs
          return found.map fun next => (next.1, next.2.1, idx :: next.2.2) := by
        simp only [retrieveProof, proofAt_done chained.entry, Exec.done_bind, count]
      cases ih fun other member => chains other (List.mem_cons_of_mem _ member) with
      | inl nothing =>
        obtain ⟨none, unfinished⟩ := nothing
        refine .inl ⟨by rw [step, none]; rfl, fun other member q l' chained' => ?_⟩
        cases List.mem_cons.mp member with
        | inl same =>
          subst same
          obtain rfl := Option.some.inj (chained.entry.symm.trans chained'.entry)
          rwa [← chained.preds.unique chained'.preds]
        | inr later => exact unfinished other later q l' chained'
      | inr something =>
        obtain ⟨before, found, after, q, l', split, chained', done, run⟩ := something
        refine .inr ⟨idx :: before, found, after, q, l', by rw [split]; rfl, chained', done, ?_⟩
        rw [step, run]
        rfl

/-- For every finished request `handle_proofs` sends the bytes of `WriteProof`, with the number of digits in front, and
nothing for the others. -/
theorem handleProofs_messages (proofs : List FinishedProof) (data : ℕ → Vector UInt8 dataSize) (links fuel : ℕ)
    (doneProofs : List ℕ) (chains : ∀ idx ∈ doneProofs, ∃ p l, Chained proofs idx p l) (enough : 63 < links)
    (turns : doneProofs.length < fuel) :
    ∃ out, handleProofs proofs data links fuel doneProofs = .done out ∧
      (∀ idx ∈ doneProofs, ∀ p l, Chained proofs idx p l → Done l → ∃ writes, (idx, writes) ∈ out) ∧
      ∀ idx writes, (idx, writes) ∈ out → idx ∈ doneProofs ∧ ∃ p l, Chained proofs idx p l ∧ Done l ∧
        writes.flatten = writeProof p.iters (chainProof p l) ∧
        ∃ digits : ByteString, writes.flatten = ByteString.msbFirst 4 digits.length ++ digits ∧
          digits.length < 2 ^ 32 := by
  induction fuel generalizing doneProofs with
  | zero => omega
  | succ fuel ih =>
    cases retrieveProof_spec links enough doneProofs chains with
    | inl nothing =>
      obtain ⟨none, unfinished⟩ := nothing
      refine ⟨[], by simp only [handleProofs, none, Exec.done_bind], fun idx member p l chained done => ?_, by simp⟩
      exact absurd done (unfinished idx member p l chained)
    | inr something =>
      obtain ⟨before, idx, after, p, l, rfl, chained, done, retrieved⟩ := something
      obtain ⟨writes, sent, bytes⟩ := sendProof_spec chained.preds (data fuel)
      have fewer : (before ++ after).length < fuel := by
        simp only [List.length_append, List.length_cons] at turns ⊢
        omega
      obtain ⟨out, run, complete, sound⟩ := ih (before ++ after)
        (fun other member => chains other (by simp at member ⊢; tauto)) fewer
      refine ⟨(idx, writes) :: out, ?_, ?_, ?_⟩
      · simp only [handleProofs, retrieved, Exec.done_bind, proofAt_done chained.entry, sent, run, Exec.pure_eq]
      · intro other member q l' chained' done'
        by_cases same : other = idx
        · exact ⟨writes, same ▸ List.mem_cons_self⟩
        · obtain ⟨writes', sent'⟩ := complete other (by simp [same] at member ⊢; exact member) q l' chained' done'
          exact ⟨writes', List.mem_cons_of_mem _ sent'⟩
      · intro other writes' member
        cases List.mem_cons.mp member with
        | inl same =>
          obtain ⟨rfl, rfl⟩ := Prod.mk.inj same
          have same : writes'.flatten = writeProof p.iters (chainProof p l) := by rw [bytes, writeProof_chainProof]
          obtain ⟨digits, front, small⟩ := length_in_front p l chained.short
          exact ⟨by simp, p, l, chained, done, same, digits, same.trans front, small⟩
        | inr later =>
          obtain ⟨inside, rest⟩ := sound other writes' later
          exact ⟨by simp at inside ⊢; tauto, rest⟩

/-- A request for 1500000 iterations behind a checkpoint. -/
theorem handleProofs_messages_two : ∃ (proofs : List FinishedProof) (out : List (ℕ × List ByteString)),
    handleProofs proofs (fun _ => Vector.replicate dataSize 0) 64 2 [1] = .done out ∧
      ∃ writes, (1, writes) ∈ out := by
  let chkp : FinishedProof := ⟨⟨1000000, 1000000, 5, HW_VDF_PROOF_NONE, 1⟩, Vector.replicate _ 1,
    Vector.replicate _ 2, Vector.replicate _ 3⟩
  let req : FinishedProof := ⟨⟨1500000, 500000, 7, 0, 1⟩, Vector.replicate _ 4, Vector.replicate _ 5,
    Vector.replicate _ 6⟩
  have chained : Chained [chkp, req] 1 req [chkp] := ⟨rfl, .link (by decide) rfl (.first rfl), by decide⟩
  have done : Done [chkp] := by
    intro q member
    rw [List.mem_singleton.mp member]
    decide
  obtain ⟨out, run, complete, -⟩ := handleProofs_messages [chkp, req] (fun _ => Vector.replicate dataSize 0) 64 2 [1]
    (fun idx member => ⟨req, [chkp], List.mem_singleton.mp member ▸ chained⟩) (by norm_num) (by norm_num)
  exact ⟨_, out, run, complete 1 (by simp) req [chkp] chained done⟩

end Message

end HwMessage

end ChiaVdf
