import ChiaVdf.HwComputeProof
import ChiaVdf.HwProofRefs
import ChiaVdf.NWesoAccepted

/-! The answer to a request: when every entry of a chain holds an honest proof of its segment, the message that is sent
for it is a proof that the verifier accepts. -/
namespace ChiaVdf

open PrevChain
open HwMessage (Preds Chained chainProof segmBytes)
open HwProver (Written)

/-- The table with the arrays of its entries. -/
def finished (proofs : List VdfProof) (bytes : ℕ → SegmentBytes) : List FinishedProof :=
  proofs.mapIdx fun i p => ⟨p, (bytes i).y, (bytes i).proof, (bytes i).B⟩

/-- An entry with its arrays. -/
def finishedAt (p : VdfProof) (bytes : SegmentBytes) : FinishedProof := ⟨p, bytes.y, bytes.proof, bytes.B⟩

section Finished

variable {proofs : List VdfProof} {bytes : ℕ → SegmentBytes} {i : ℕ} {p : VdfProof} {q : FinishedProof}

theorem finished_getElem? : (finished proofs bytes)[i]? = (proofs[i]?).map fun p => finishedAt p (bytes i) := by
  simp [finished, finishedAt, List.getElem?_mapIdx]

theorem finished_entry (entry : proofs[i]? = some p) :
    (finished proofs bytes)[i]? = some (finishedAt p (bytes i)) := by
  simp [finished_getElem?, entry]

end Finished

namespace VdfProofs

variable {d : Discriminant} {env : VerifierEnv} {x : ReducedForm d} {proofs : List VdfProof} {bytes : ℕ → SegmentBytes}
  {i : ℕ} {p : VdfProof} {l : List FinishedProof}

/-- An entry that holds an honest proof of its segment, which has been checked. -/
structure Proven (env : VerifierEnv) (x : ReducedForm d) (p : VdfProof) (bytes : SegmentBytes)
    (segm : Segment) : Prop where
  honest : HonestSegment env (x ^ 2 ^ (p.iters - p.segIters)) (x ^ 2 ^ p.iters) segm
  check : ∃ f, env.checkSegment d.D segm = .done f
  length : segm.length = UInt64.ofNat p.segIters
  small : p.iters < 2 ^ 64
  written : Written env d (p.has HW_VDF_PROOF_FLAG_IS_REQ) segm bytes

theorem Proven.append {segm : Segment} (proven : Proven env x p (bytes i) segm) (below : p.segIters ≤ p.iters)
    (chkp : p.has HW_VDF_PROOF_FLAG_IS_REQ = false) {segments : List Segment} {n : ℕ}
    (place : segments[n]? = some segm) (front : ByteString) :
    env.appendSegments d.D segments (n + 1) front =
      env.appendSegments d.D segments n (front ++ segmBytes (finishedAt p (bytes i))) := by
  obtain ⟨B, hash, exported⟩ := proven.written.B chkp
  have small := proven.small
  have iters : int64ToBytes segm.length = ByteString.msbFirst 8 p.segIters := by
    rw [int64ToBytes, proven.length, UInt64.toNat_ofNat_of_lt' (show _ < 2 ^ 64 by omega)]
  simp only [VerifierEnv.appendSegments, place, hash, proven.written.proof, Exec.done_bind, iters, segmBytes,
    finishedAt, exported, List.append_assoc]

/-- The segments of a chain, with the last one apart. -/
structure ProvenChain (env : VerifierEnv) (x : ReducedForm d) (p : VdfProof) (bytes : SegmentBytes)
    (l : List FinishedProof) (segments : List Segment) (last : Segment) : Prop where
  proven : Proven env x p bytes last
  below : p.segIters ≤ p.iters
  chain : HonestChain env x (segments ++ [last]) (x ^ 2 ^ p.iters)
  checked : ∀ s ∈ segments, ∃ f, env.checkSegment d.D s = .done f
  length : segments.length = l.length
  total : (segments.map fun s => s.length.toNat).sum = p.iters - p.segIters
  append : ∀ more front, env.appendSegments d.D (segments ++ more) segments.length front =
    .done (front ++ l.flatMap segmBytes)

theorem ProvenChain.root {segm : Segment} (proven : Proven env x p (bytes i) segm) (root : p.iters = p.segIters) :
    ProvenChain env x p (bytes i) [] [] segm where
  proven := proven
  below := root.ge
  chain := by
    have honest := proven.honest
    rw [root, Nat.sub_self, pow_zero, pow_one, ← root] at honest
    exact HonestChain.nil.snoc honest
  checked := by simp
  length := rfl
  total := by simp [root]
  append := by simp [VerifierEnv.appendSegments]

theorem ProvenChain.link {j : ℕ} {q : VdfProof} {segments : List Segment} {last segm : Segment}
    (before : ProvenChain env x q (bytes j) l segments last) (proven : Proven env x p (bytes i) segm)
    (chkp : q.has HW_VDF_PROOF_FLAG_IS_REQ = false) (sum : p.iters = q.iters + p.segIters) :
    ProvenChain env x p (bytes i) (finishedAt q (bytes j) :: l) (segments ++ [last]) segm where
  proven := proven
  below := by omega
  chain := by
    have honest := proven.honest
    rw [show p.iters - p.segIters = q.iters by omega] at honest
    exact before.chain.snoc honest
  checked s member := by
    rcases List.mem_append.mp member with old | new
    · exact before.checked s old
    · obtain rfl := List.mem_singleton.mp new
      exact before.proven.check
  length := by simp [before.length]
  total := by
    have small := before.proven.small
    have below := before.below
    rw [List.map_append, List.sum_append, before.total, List.map_singleton, List.sum_singleton, before.proven.length,
      UInt64.toNat_ofNat_of_lt' (show _ < 2 ^ 64 by omega)]
    omega
  append more front := by
    have place : (segments ++ [last] ++ more)[segments.length]? = some last := by simp
    rw [List.length_append, List.length_singleton, before.proven.append before.below chkp place, List.append_assoc,
      before.append]
    simp

variable (bytes) in
theorem WellFormed.preds (table : WellFormed proofs) (live : LiveAt proofs i p) :
    ∃ l, Preds (finished proofs bytes) (finishedAt p (bytes i)) l ∧
      l.length + 1 = (chain (prevOf proofs) i).length := by
  induction i using link_induction table.descending generalizing p with
  | root i root =>
    exact ⟨[], .first ((prevOf_eq_none live.entry).mp root), by simp [chain_root root]⟩
  | step i j link ih =>
    obtain ⟨q, at_j, -⟩ := table.link live link
    obtain ⟨rfl, more⟩ := (prevOf_eq_some live.entry).mp link
    obtain ⟨l, preds, length⟩ := ih at_j
    exact ⟨_, .link more (finished_entry at_j.entry) preds, by simp [chain_step table.descending link, length]⟩

variable (bytes) in
theorem WellFormed.chained (table : WellFormed proofs) (live : LiveAt proofs i p) :
    ∃ l, Chained (finished proofs bytes) i (finishedAt p (bytes i)) l := by
  obtain ⟨l, preds, length⟩ := table.preds bytes live
  have depth := table.depth live
  refine ⟨l, finished_entry live.entry, preds, ?_⟩
  split_ifs at depth <;> omega

theorem finishedAt_of_link {j : ℕ} {q : VdfProof} {q' : FinishedProof} (same : p.prev = j) (at_j : LiveAt proofs j q)
    (entry : (finished proofs bytes)[p.prev]? = some q') : finishedAt q (bytes j) = q' := by
  rw [same, finished_entry at_j.entry] at entry
  exact Option.some.inj entry

theorem WellFormed.preds_done (table : WellFormed proofs)
    (all : ∀ {i p}, LiveAt proofs i p → p.has HW_VDF_PROOF_FLAG_DONE = true) (live : LiveAt proofs i p)
    (preds : Preds (finished proofs bytes) (finishedAt p (bytes i)) l) : HwMessage.Done l := by
  induction i using link_induction table.descending generalizing p l with
  | root i root =>
    cases preds with
    | first => exact fun _ member => absurd member List.not_mem_nil
    | link more => exact absurd ((prevOf_eq_none live.entry).mp root) more
  | step i j link ih =>
    obtain ⟨q, at_j, -⟩ := table.link live link
    obtain ⟨same, more⟩ := (prevOf_eq_some live.entry).mp link
    cases preds with
    | first root => exact absurd root more
    | link _ entry preds =>
      obtain rfl := finishedAt_of_link same at_j entry
      intro r member
      rcases List.mem_cons.mp member with rfl | later
      · exact all at_j
      · exact ih at_j preds r later

theorem WellFormed.provenChain (table : WellFormed proofs)
    (proven : ∀ {i p}, LiveAt proofs i p → p.has HW_VDF_PROOF_FLAG_DONE = true → ∃ segm, Proven env x p (bytes i) segm)
    (live : LiveAt proofs i p) (ends : p.has HW_VDF_PROOF_FLAG_DONE = true)
    (preds : Preds (finished proofs bytes) (finishedAt p (bytes i)) l) (done : HwMessage.Done l) :
    ∃ segments last, ProvenChain env x p (bytes i) l segments last := by
  induction i using link_induction table.descending generalizing p l with
  | root i root =>
    obtain ⟨segm, holds⟩ := proven live ends
    cases preds with
    | first => exact ⟨[], segm, .root holds (table.root live root)⟩
    | link more => exact absurd ((prevOf_eq_none live.entry).mp root) more
  | step i j link ih =>
    obtain ⟨q, at_j, chkp, sum, -⟩ := table.link live link
    obtain ⟨same, more⟩ := (prevOf_eq_some live.entry).mp link
    obtain ⟨segm, holds⟩ := proven live ends
    cases preds with
    | first root => exact absurd root more
    | link _ entry preds =>
      obtain rfl := finishedAt_of_link same at_j entry
      obtain ⟨segments, last, before⟩ := ih at_j (done _ List.mem_cons_self) preds
        fun q member => done q (List.mem_cons_of_mem _ member)
      exact ⟨_, segm, before.link holds chkp sum⟩

end VdfProofs

/-- The message is the answer to a request for that many iterations from the form on: a proof that the verifier accepts,
with the form, the discriminant and the iterations that the one who asked has. -/
def Answers (env : VerifierEnv) {d : Discriminant} (x : ReducedForm d) (iters : ℕ) (message : ByteString) : Prop :=
  ∃ proof xS, message = writeProof iters proof ∧ serializeForm x.form (numBits d.D) = .done xS ∧
    env.checkProofOfTimeNWesolowski d.D xS (proof.y ++ proof.proof) (UInt64.ofNat iters) (UInt64.ofNat (numBits d.D))
      proof.witnessType.toUInt64 = .done true

namespace VdfProofs

variable {d : Discriminant} {env : VerifierEnv} {x : ReducedForm d} {bytes : ℕ → SegmentBytes}
  {i : ℕ} {p : VdfProof} {l : List FinishedProof} {segments : List Segment} {last : Segment}

/-- What `Prove` writes for the segments is what is sent. -/
theorem ProvenChain.serializeProof (chain : ProvenChain env x p (bytes i) l segments last) :
    env.serializeProof d.D last.y (segments ++ [last]) = .done (chainProof (finishedAt p (bytes i)) l) := by
  have count : (segments ++ [last]).length - 1 = segments.length := by simp
  have place : (segments ++ [last])[segments.length]? = some last := by simp
  obtain ⟨formY, proof, -⟩ := chain.proven.written
  simp only [VerifierEnv.serializeProof, formY, count, place, proof, chain.append, Exec.done_bind, Exec.pure_eq]
  simp [chainProof, finishedAt, chain.length]

/-- All segments have been checked, so that the verifier comes back. -/
theorem ProvenChain.checkSegments (chain : ProvenChain env x p (bytes i) l segments last) :
    env.checkSegments d.D (segments ++ [last]) = .done () := by
  apply checkSegments_done.mpr
  intro s member
  rcases List.mem_append.mp member with old | new
  · exact chain.checked s old
  · obtain rfl := List.mem_singleton.mp new
    exact chain.proven.check

theorem ProvenChain.answers (bits : numBits d.D ≤ BQFC_MAX_D_BITS) (within : env.arith.Within d) (top : HashTopBit env)
    (chain : ProvenChain env x p (bytes i) l segments last) (short : l.length ≤ 63) (positive : 0 < p.iters)
    {table : List FinishedProof} {writes : List ByteString} {data : Vector UInt8 HwMessage.dataSize}
    (preds : Preds table (finishedAt p (bytes i)) l)
    (run : HwMessage.sendProof table data l.length (finishedAt p (bytes i)) = .done writes) :
    Answers env x p.iters writes.flatten := by
  have few : (segments ++ [last]).length ≤ 64 := by
    rw [List.length_append, List.length_singleton, chain.length]
    omega
  have small := chain.proven.small
  have below := chain.below
  have total : ((segments ++ [last]).map fun s => s.length.toNat).sum = p.iters := by
    rw [List.map_append, List.sum_append, chain.total, List.map_singleton, List.sum_singleton, chain.proven.length,
      UInt64.toNat_ofNat_of_lt' (show _ < 2 ^ 64 by omega), Nat.sub_add_cancel below]
  obtain ⟨proof, xS, written, start, accepted⟩ := NWesoSession.checked_of_chain bits within top x.represents positive
    small chain.chain few total chain.proven.honest.y
  rw [chain.checkSegments, Exec.done_bind] at accepted
  obtain rfl := Exec.done.inj (chain.serializeProof.symm.trans written)
  obtain ⟨writes', run', flat⟩ := HwMessage.sendProof_spec preds data
  obtain rfl := Exec.done.inj (run.symm.trans run')
  exact ⟨_, xS, flat.trans (HwMessage.writeProof_chainProof _ l).symm, start, accepted⟩

end VdfProofs

end ChiaVdf
