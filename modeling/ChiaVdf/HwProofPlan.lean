import ChiaVdf.HwProof
import ChiaVdf.PrevChain

/-! Planning of the proofs of a hardware VDF (`hw_proof.cpp`). A requested proof is a chain of segments
through the table `proofs`; segments that are not started yet wait in `queued_proofs`, and a request for
fewer iterations than are queued tears down the later ones and has them planned again. -/
namespace ChiaVdf

def HW_VDF_PROOF_FLAG_DONE : ℕ := 1
def HW_VDF_PROOF_FLAG_IS_REQ : ℕ := 2
def HW_VDF_PROOF_FLAG_STARTED : ℕ := 4

def HW_VDF_PROOF_NONE : ℕ := 0xffff

def chkpThres : ℕ := 1000000

def maxChkpSegments : ℕ := 64 - 3

structure VdfProof where
  iters : ℕ
  segIters : ℕ
  flags : ℕ
  prev : ℕ
  refCnt : ℕ
  deriving DecidableEq

/-- What `memset` with 0xff leaves of an entry. -/
def VdfProof.erased : VdfProof := ⟨2 ^ 64 - 1, 2 ^ 64 - 1, 0xff, HW_VDF_PROOF_NONE, 2 ^ 16 - 1⟩

def VdfProof.has (proof : VdfProof) (flag : ℕ) : Bool := proof.flags &&& flag ≠ 0

/-- The counter has 16 bits. -/
def VdfProof.incRefCnt (proof : VdfProof) : VdfProof :=
  { proof with refCnt := (proof.refCnt + 1) % 2 ^ 16 }

def VdfProof.decRefCnt (proof : VdfProof) : VdfProof :=
  { proof with refCnt := (proof.refCnt + 0xffff) % 2 ^ 16 }

structure VdfProofReq where
  iters : ℕ
  isChkp : Bool

/-- The fields of `vdf_state` that planning works on. -/
structure VdfProofs where
  reqProofs : List VdfProofReq
  proofs : List VdfProof
  queuedProofs : List ℕ
  doneProofs : List ℕ

/-- `std::sort`, which says nothing about the order of elements with equal keys. -/
structure StdSort where
  sort : {α : Type} → (α → ℕ) → List α → List α
  perm : ∀ {α : Type} (key : α → ℕ) (l : List α), (sort key l).Perm l
  sorted : ∀ {α : Type} (key : α → ℕ) (l : List α), (sort key l).Pairwise (key · ≤ key ·)

/-- Subtraction of 64-bit numbers. -/
def sub64 (a b : ℕ) : ℕ := (a + 2 ^ 64 - b) % 2 ^ 64

def proofAt (proofs : List VdfProof) (idx : ℕ) : Exec VdfProof :=
  match proofs[idx]? with
  | some proof => .done proof
  | none => .fault .outOfBounds

/-- The loop of `hw_proof_cnt_segments`. A loop along a chain that takes more turns than there are
entries never ends. -/
def cntSegments (proofs : List VdfProof) : ℕ → ℕ → Exec ℕ
  | 0, _ => .diverged
  | fuel + 1, idx => do
    let proof ← proofAt proofs idx
    if proof.prev = HW_VDF_PROOF_NONE then .done 1
    else do
      let cnt ← cntSegments proofs fuel proof.prev
      return (cnt + 1) % 2 ^ 8

/-- The loop of `hw_proof_inc_ref`. -/
def incRef : ℕ → List VdfProof → ℕ → Exec (List VdfProof)
  | 0, _, _ => .diverged
  | fuel + 1, proofs, idx => do
    let proof ← proofAt proofs idx
    let proofs := proofs.set idx proof.incRefCnt
    if proof.prev = HW_VDF_PROOF_NONE then .done proofs else incRef fuel proofs proof.prev

/-- The inner loop of `hw_proof_dec_ref`, with the entries that lost their last reference. -/
def decRefWalk : ℕ → List VdfProof → List ℕ → ℕ → Exec (List VdfProof × List ℕ)
  | 0, _, _, _ => .diverged
  | fuel + 1, proofs, toDel, idx => do
    let proof ← proofAt proofs idx
    if proof.has HW_VDF_PROOF_FLAG_STARTED then .done (proofs, toDel)
    else
      let proofs := proofs.set idx proof.decRefCnt
      let toDel := if proof.decRefCnt.refCnt = 0 then toDel ++ [idx] else toDel
      if proof.prev = HW_VDF_PROOF_NONE then .done (proofs, toDel)
      else decRefWalk fuel proofs toDel proof.prev

/-- The outer loop of `hw_proof_dec_ref`. -/
def decRefWalks : List ℕ → List VdfProof → List ℕ → Exec (List VdfProof × List ℕ)
  | [], proofs, toDel => .done (proofs, toDel)
  | idx :: idxs, proofs, toDel => do
    let (proofs, toDel) ← decRefWalk proofs.length proofs toDel idx
    decRefWalks idxs proofs toDel

/-- The loop that erases `idx` from `queued_proofs`; the element after an erased one is passed over. -/
def eraseQueued (idx : ℕ) : List ℕ → List ℕ
  | [] => []
  | queued :: rest =>
    if queued = idx then
      match rest with
      | [] => []
      | next :: rest => next :: eraseQueued idx rest
    else queued :: eraseQueued idx rest

/-- The loop of `hw_proof_dec_ref` that deletes entries, from the highest index down. `size` is
`last_proof_idx + 1`. -/
def deleteProofs : List ℕ → List VdfProof → List ℕ → ℕ → List VdfProof × List ℕ × ℕ
  | [], proofs, queued, size => (proofs, queued, size)
  | idx :: idxs, proofs, queued, size =>
    deleteProofs idxs (proofs.set idx .erased) (eraseQueued idx queued)
      (if idx + 1 = size then size - 1 else size)

namespace VdfProofs

def hasBack (vdf : VdfProofs) : Exec ℕ :=
  match vdf.queuedProofs.getLast? with
  | some idx => .done idx
  | none => .fault .outOfBounds

def shouldQueue (vdf : VdfProofs) (iters : ℕ) : Exec Bool := do
  let idx ← vdf.hasBack
  let proof ← proofAt vdf.proofs idx
  return iters < proof.iters

def requestProof (std : StdSort) (vdf : VdfProofs) (iters : ℕ) (isChkp : Bool) : VdfProofs :=
  { vdf with reqProofs := std.sort VdfProofReq.iters (vdf.reqProofs ++ [⟨iters, isChkp⟩]) }

def decRef (std : StdSort) (vdf : VdfProofs) (idxs : List ℕ) : Exec VdfProofs := do
  let (proofs, toDel) ← decRefWalks idxs vdf.proofs []
  let (proofs, queued, size) :=
    deleteProofs (std.sort id toDel).reverse proofs vdf.queuedProofs proofs.length
  return { vdf with proofs := proofs.take size, queuedProofs := queued }

/-- The queued requests that come after one for `reqIters` iterations are requested again. -/
def requeue (std : StdSort) (reqIters : ℕ) : List ℕ → VdfProofs → Exec (VdfProofs × List ℕ)
  | [], vdf => .done (vdf, [])
  | idx :: idxs, vdf => do
    let proof ← proofAt vdf.proofs idx
    if !proof.has HW_VDF_PROOF_FLAG_IS_REQ || reqIters > proof.iters then requeue std reqIters idxs vdf
    else do
      let (vdf, toDel) ← requeue std reqIters idxs (vdf.requestProof std proof.iters false)
      return (vdf, idx :: toDel)

def tearDown (std : StdSort) (vdf : VdfProofs) (reqIters : ℕ) : Exec VdfProofs := do
  let (vdf, toDel) ← requeue std reqIters vdf.queuedProofs vdf
  vdf.decRef std toDel

/-- The checkpoint that a chain for `reqIters` iterations can go on from; the queue is searched from its end. -/
def findBase (proofs : List VdfProof) (reqIters : ℕ) : List ℕ → Exec (Option ℕ)
  | [] => .done none
  | idx :: idxs => do
    let proof ← proofAt proofs idx
    if proof.has HW_VDF_PROOF_FLAG_IS_REQ then findBase proofs reqIters idxs
    else do
      let nSegments ← cntSegments proofs proofs.length idx
      if proof.iters ≤ reqIters ∧ nSegments ≤ maxChkpSegments then .done (some idx)
      else findBase proofs reqIters idxs

/-- The number of iterations at the end of a segment that comes after `prev`. -/
def segmentEnd (proofs : List VdfProof) (segIters prev : ℕ) : Exec ℕ :=
  if prev = HW_VDF_PROOF_NONE then .done segIters
  else do
    let proof ← proofAt proofs prev
    return (segIters + proof.iters) % 2 ^ 64

def queueProof (vdf : VdfProofs) (segIters prev flags : ℕ) : Exec (VdfProofs × ℕ) := do
  let iters ← segmentEnd vdf.proofs segIters prev
  let pos := vdf.proofs.length % 2 ^ 16
  return ({ vdf with
    proofs := vdf.proofs ++ [⟨iters, segIters, flags, prev, 1⟩]
    queuedProofs := vdf.queuedProofs ++ [pos] }, pos)

def queueReq (vdf : VdfProofs) (iters prev : ℕ) : Exec VdfProofs := do
  let (vdf, _) ← vdf.queueProof iters prev HW_VDF_PROOF_FLAG_IS_REQ
  return vdf

/-- The last checkpoint of a request and the request itself. -/
def queueChkp (vdf : VdfProofs) (chkpIters iters prev : ℕ) : Exec VdfProofs := do
  let chkpIters := chkpIters / HW_VDF_VALUE_INTERVAL * HW_VDF_VALUE_INTERVAL
  let (vdf, prev) ← vdf.queueProof chkpIters prev 0
  vdf.queueReq (sub64 iters chkpIters) prev

/-- Short requests have one segment, others are split as [75%, 25%] or as [69%, 23%, 8%]. -/
def queueSegments (vdf : VdfProofs) (iters prev : ℕ) : Exec VdfProofs :=
  if iters > chkpThres then
    let chkpIters := iters * 3 % 2 ^ 64 / 4
    if sub64 iters chkpIters > chkpThres then do
      let chkpIters := iters * 69 % 2 ^ 64 / 100 / HW_VDF_VALUE_INTERVAL * HW_VDF_VALUE_INTERVAL
      let (vdf, prev) ← vdf.queueProof chkpIters prev 0
      vdf.queueChkp (sub64 (iters * 92 % 2 ^ 64 / 100) chkpIters) (sub64 iters chkpIters) prev
    else vdf.queueChkp chkpIters iters prev
  else vdf.queueReq iters prev

/-- The key that `ProofCmp` compares. -/
def itersOf (proofs : List VdfProof) (idx : ℕ) : ℕ :=
  match proofs[idx]? with
  | some proof => proof.iters
  | none => 0

def sortQueue (std : StdSort) (vdf : VdfProofs) : VdfProofs :=
  { vdf with queuedProofs := std.sort (itersOf vdf.proofs) vdf.queuedProofs }

/-- The part of `hw_proof_process_req` after the tear down. -/
def plan (std : StdSort) (vdf : VdfProofs) (reqIters : ℕ) : Exec VdfProofs := do
  let base ← findBase vdf.proofs reqIters vdf.queuedProofs.reverse
  let vdf ← match base with
    | none => vdf.queueSegments reqIters HW_VDF_PROOF_NONE
    | some idx => do
      let proof ← proofAt vdf.proofs idx
      let proofs ← incRef vdf.proofs.length vdf.proofs idx
      { vdf with proofs := proofs }.queueSegments (reqIters - proof.iters) idx
  return vdf.sortQueue std

def processReq (std : StdSort) (vdf : VdfProofs) : Exec VdfProofs :=
  match vdf.reqProofs with
  | [] => .done vdf
  | req :: reqs => do
    let vdf := { vdf with reqProofs := reqs }
    let later ← if vdf.queuedProofs = [] then .done false else vdf.shouldQueue req.iters
    let vdf ← if later then vdf.tearDown std req.iters else .done vdf
    vdf.plan std req.iters

/-- The condition of the planning loop of `hw_proof_process_work`. -/
def planDue (vdf : VdfProofs) : Exec Bool :=
  match vdf.reqProofs with
  | [] => .done false
  | req :: _ => if vdf.queuedProofs.length < 3 then .done true else vdf.shouldQueue req.iters

def planLoop (std : StdSort) : ℕ → VdfProofs → Exec VdfProofs
  | 0, _ => .diverged
  | fuel + 1, vdf => do
    let due ← vdf.planDue
    if due then do
      let vdf ← vdf.processReq std
      planLoop std fuel vdf
    else .done vdf

def setFlag (vdf : VdfProofs) (idx : ℕ) (proof : VdfProof) (flag : ℕ) : VdfProofs :=
  { vdf with proofs := vdf.proofs.set idx { proof with flags := proof.flags ||| flag } }

/-- A proof thread is started for the first queued entry. -/
def startProof (vdf : VdfProofs) : Exec VdfProofs :=
  match vdf.queuedProofs with
  | [] => .done vdf
  | idx :: queued => do
    let proof ← proofAt vdf.proofs idx
    return { vdf with queuedProofs := queued }.setFlag idx proof HW_VDF_PROOF_FLAG_STARTED

/-- The end of `hw_compute_proof`. -/
def finishProof (vdf : VdfProofs) (idx : ℕ) : Exec VdfProofs := do
  let proof ← proofAt vdf.proofs idx
  let doneProofs :=
    if proof.has HW_VDF_PROOF_FLAG_IS_REQ then vdf.doneProofs ++ [idx] else vdf.doneProofs
  return { vdf with doneProofs := doneProofs }.setFlag idx proof HW_VDF_PROOF_FLAG_DONE

/-- The inner loop of `hw_retrieve_proof`: the number of segments before `j`, if all are done. -/
def segmentsDone (proofs : List VdfProof) : ℕ → ℕ → Exec (Option ℕ)
  | 0, _ => .diverged
  | fuel + 1, j =>
    if j = HW_VDF_PROOF_NONE then .done (some 0)
    else do
      let proof ← proofAt proofs j
      if !proof.has HW_VDF_PROOF_FLAG_DONE then .done none
      else do
        let cnt ← segmentsDone proofs fuel proof.prev
        return cnt.map (· + 1)

/-- The first done proof all of whose segments are done, and what is left of `done_proofs`. -/
def findDone (proofs : List VdfProof) : List ℕ → Exec (Option (ℕ × ℕ) × List ℕ)
  | [] => .done (none, [])
  | idx :: idxs => do
    let proof ← proofAt proofs idx
    let cnt ← segmentsDone proofs (proofs.length + 1) proof.prev
    match cnt with
    | some cnt => return (some (idx, cnt), idxs)
    | none => do
      let (found, rest) ← findDone proofs idxs
      return (found, idx :: rest)

def retrieveProof (vdf : VdfProofs) : Exec (Option (ℕ × ℕ) × VdfProofs) := do
  let (found, doneProofs) ← findDone vdf.proofs vdf.doneProofs
  return (found, { vdf with doneProofs := doneProofs })

end VdfProofs

end ChiaVdf
