import ChiaVdf.HwProofEntries
import ChiaVdf.HwVdfClient

/-! The hardware client with its proofs: requests arrive while the VDF runs, the event loop plans segments and starts
threads for them, the threads read the values that they need one by one, compute their proofs and write them into the
table, and finished requests are answered. The steps of all of these come in any order. -/
namespace ChiaVdf

open HwMessage (Chained chainProof)
open HwProver (hwComputeProof computeSegment)

/-- `reads` are the values that the threads of the entries have taken, `bytes` the arrays of the entries. `requested`
and `sent` are what has come and gone over the connection. -/
structure ProofClient where
  client : VdfClient
  proofs : VdfProofs
  reads : ℕ → ℕ → Option Form
  bytes : ℕ → SegmentBytes
  requested : List ℕ
  sent : List (ℕ × ByteString)

namespace ProofClient

/-- The arrays of an entry are not initialized before its thread writes them, and those of `handle_proofs` not
either. -/
inductive Event where
  | client (event : VdfClient.Event)
  | request (iters : ℕ)
  | plan
  | start (i : ℕ)
  | read (entry pos : ℕ)
  | finish (entry : ℕ) (out : SegmentBytes)
  | send (data : Vector UInt8 HwMessage.dataSize)

/-- The form that a thread has read at a position, which it waits for otherwise. -/
def value (s : ProofClient) (entry pos : ℕ) : Exec Form :=
  match s.reads entry pos with
  | some f => .done f
  | none => .diverged

variable (env : VerifierEnv) (std : StdSort) (D L : ℤ) (idx : ℕ)

/-- The first entry of the queue goes to the aux thread `i`. -/
def start (s : ProofClient) (i : ℕ) : Exec ProofClient := do
  let client ← s.client.step env.arith D L idx (.vdf (.startProof i))
  let proofs ← s.proofs.startProof
  return { s with client := client, proofs := proofs }

/-- `hw_proof_wait_value` has seen the bit of the value. -/
def read (s : ProofClient) (entry pos : ℕ) : ProofClient :=
  { s with reads := Function.update s.reads entry (Function.update (s.reads entry) pos (s.client.vdf.values pos)) }

def finish (s : ProofClient) (entry : ℕ) (out : SegmentBytes) : Exec ProofClient := do
  let proof ← ChiaVdf.proofAt s.proofs.proofs entry
  let bytes ← hwComputeProof env D (s.value entry) proof.iters proof.segIters (proof.has HW_VDF_PROOF_FLAG_IS_REQ) out
  let proofs ← s.proofs.finishProof entry
  return { s with proofs := proofs, bytes := Function.update s.bytes entry bytes }

/-- The body of the loop of `handle_proofs`, as long as a proof is retrieved. Links have 16 bits. -/
def sendNext (s : ProofClient) (data : Vector UInt8 HwMessage.dataSize) : Exec (Option ProofClient) := do
  let table := finished s.proofs.proofs s.bytes
  match ← HwMessage.retrieveProof table (2 ^ 16) s.proofs.doneProofs with
  | none => .done none
  | some (i, entry, doneProofs) => do
    let proof ← HwMessage.proofAt table entry
    let writes ← HwMessage.sendProof table data i proof
    return some { s with
      proofs := { s.proofs with doneProofs := doneProofs }
      sent := s.sent ++ [(proof.iters, writes.flatten)] }

def handleProofs (data : ℕ → Vector UInt8 HwMessage.dataSize) : ℕ → ProofClient → Exec ProofClient
  | 0, _ => .diverged
  | fuel + 1, s => do
    match ← s.sendNext (data fuel) with
    | none => .done s
    | some t => handleProofs data fuel t

def step (s : ProofClient) : Event → Exec ProofClient
  | .client event => do
    let client ← s.client.step env.arith D L idx event
    return { s with client := client }
  | .request iters => .done { s with
      proofs := s.proofs.requestProof std iters false
      requested := iters :: s.requested }
  | .plan => do
    let proofs ← s.proofs.planTurn std
    return { s with proofs := proofs }
  | .start i => s.start env D L idx i
  | .read entry pos => .done (s.read entry pos)
  | .finish entry out => s.finish env D entry out
  | .send data => do
    let t ← s.sendNext data
    return t.getD s

/-- The steps that square, multiply or reduce forms. -/
def Event.Reduces : Event → Prop
  | .client event => event.Reduces
  | .finish _ _ => True
  | _ => False

/-- The thread of an entry is running. -/
def Running (s : ProofClient) (entry : ℕ) (p : VdfProof) : Prop :=
  VdfProofs.LiveAt s.proofs.proofs entry p ∧ p.has HW_VDF_PROOF_FLAG_STARTED = true ∧
    p.has HW_VDF_PROOF_FLAG_DONE = false

/-- What the client does next. Planning and starting are parts of `hw_proof_process_work`, and a thread is started
for an entry that the VDF has come to. A thread comes to its end when it has read all values of its segment. -/
def Enabled (s : ProofClient) : Event → Prop
  | .client (.vdf (.startProof _)) => False
  | .client event => s.client.Enabled idx event
  | .plan => s.client.vdf.eventLoop = .startingProofs
  | .start i => s.client.vdf.eventLoop = .startingProofs ∧ s.client.vdf.auxThreadsBusy i = false ∧
      ∃ entry queued, s.proofs.queuedProofs = entry :: queued ∧
        VdfProofs.itersOf s.proofs.proofs entry ≤ s.client.vdf.lastVal.iters
  | .read entry pos => (∃ p, s.Running entry p) ∧ s.client.vdf.validValues pos = true
  | .finish entry _ => ∃ p, s.Running entry p ∧
      ∀ pos, (p.iters - p.segIters) / HW_VDF_VALUE_INTERVAL ≤ pos → pos ≤ p.iters / HW_VDF_VALUE_INTERVAL →
        (s.reads entry pos).isSome = true
  | _ => True

/-- The thread of the entry ends with forms that `bqfc_serialize` writes. -/
def Writes (s : ProofClient) (entry : ℕ) : Prop :=
  ∀ p segm, s.proofs.proofs[entry]? = some p →
    computeSegment env D (s.value entry) p.iters p.segIters = .done segm →
    HwProver.Settled segm.y ∧ HwProver.Settled segm.proof

/-- The limits that the client does not check: the products of a request have 64 bits and the links of the table 16. -/
def Fits (s t : ProofClient) : Event → Prop
  | .request iters => 0 < iters ∧ iters * 92 < 2 ^ 64
  | .plan => t.proofs.proofs.length ≤ HW_VDF_PROOF_NONE
  | .finish entry _ => s.Writes env D entry
  | _ => True

end ProofClient

/-- The runs from a client on that has no requests yet. -/
inductive ProofClient.Reachable {d : Discriminant} (env : VerifierEnv) (std : StdSort) (x : ReducedForm d) (idx : ℕ) :
    ProofClient → Prop
  | init {client : VdfClient} {bytes : ℕ → SegmentBytes} (reachable : client.Reachable env.arith x idx) :
      Reachable env std x idx ⟨client, ⟨[], [], [], []⟩, fun _ _ => none, bytes, [], []⟩
  | step {s t : ProofClient} {event : ProofClient.Event} (reachable : Reachable env std x idx s)
      (enabled : s.Enabled idx event) (run : s.step env std d.D d.L idx event = .done t)
      (fits : s.Fits env d.D t event) : Reachable env std x idx t

namespace ProofClient

open VdfProofs

variable {d : Discriminant} {env : VerifierEnv} {std : StdSort} {x : ReducedForm d} {idx entry pos : ℕ}
    {s t : ProofClient}
  {p : VdfProof}

/-- The planned requests, the values that were read, the entries that are started or done, and what was sent. -/
structure Right (env : VerifierEnv) (x : ReducedForm d) (s : ProofClient) : Prop where
  planned : ∃ heads, Planned s.proofs heads s.requested ∧ QueueSorted s.proofs
  small : ∀ n ∈ s.requested, 0 < n ∧ n * 92 < 2 ^ 64
  reads : ∀ entry pos f, s.reads entry pos = some f →
    Represents f (x ^ 2 ^ (pos * HW_VDF_VALUE_INTERVAL)) ∧ NearlyReduced f
  recorded : ∃ answered, Recorded env x VdfClient.nIters s.proofs.proofs s.bytes s.proofs.doneProofs answered ∧
    s.sent.map Prod.fst = answered.map (itersOf s.proofs.proofs)
  answers : ∀ message ∈ s.sent, Answers env x message.1 message.2

theorem Right.limits (right : s.Right env x) : ∀ n ∈ s.requested, n * 92 < 2 ^ 64 :=
  fun n member => (right.small n member).2

theorem itersOf_frame {proofs proofs' : List VdfProof} (frame : Frame proofs proofs')
    {bytes : ℕ → SegmentBytes} {limit : ℕ} {doneProofs answered : List ℕ}
    (recorded : Recorded env x limit proofs bytes doneProofs answered) :
    answered.map (itersOf proofs') = answered.map (itersOf proofs) := by
  apply List.map_congr_left
  intro i member
  obtain ⟨p, live, done, -⟩ := (recorded.listed i).mp (List.mem_append_left _ member)
  obtain ⟨q, live', same⟩ := frame.started live (recorded.done live done).1
  rw [itersOf_eq live.entry, itersOf_eq live'.entry, same.iters]

section Steps

theorem Right.request (right : s.Right env x) {n : ℕ} (positive : 0 < n) (small : n * 92 < 2 ^ 64)
    (run : s.step env std d.D d.L idx (.request n) = .done t) : t.Right env x := by
  obtain rfl := Exec.done.inj run
  obtain ⟨heads, planned, sorted⟩ := right.planned
  refine ⟨⟨heads, planned.requestProof n false, sorted⟩, ?_, right.reads, right.recorded, right.answers⟩
  intro m member
  rcases List.mem_cons.mp member with rfl | old
  · exact ⟨positive, small⟩
  · exact right.small m old

theorem Right.plan (right : s.Right env x) (run : s.step env std d.D d.L idx .plan = .done t)
    (fits : t.proofs.proofs.length ≤ HW_VDF_PROOF_NONE) : t.Right env x := by
  obtain ⟨proofs, turn, last⟩ := Exec.bind_eq_done.mp run
  obtain rfl := Exec.done.inj last
  obtain ⟨heads, planned, sorted⟩ := right.planned
  obtain ⟨u, turn', ends⟩ := planned.planTurn std sorted right.limits
  obtain rfl := Exec.done.inj (turn.symm.trans turn')
  obtain ⟨frame, same⟩ := planTurn_replanned turn
  obtain ⟨answered, recorded, sent⟩ := right.recorded
  refine ⟨(ends fits).1, right.small, right.reads, ⟨answered, ?_, ?_⟩, right.answers⟩
  · rw [same]
    exact recorded.frame frame
  · rw [itersOf_frame frame recorded]
    exact sent

theorem Right.start {arith : FormArith} (right : s.Right env x) (client : s.client.Right arith x idx) {i : ℕ}
    (enabled : s.Enabled idx (.start i)) (run : s.step env std d.D d.L idx (.start i) = .done t) : t.Right env x := by
  obtain ⟨-, -, entry, queued, front, reached⟩ := enabled
  obtain ⟨client', -, run⟩ := Exec.bind_eq_done.mp run
  obtain ⟨proofs, started, last⟩ := Exec.bind_eq_done.mp run
  obtain rfl := Exec.done.inj last
  obtain ⟨heads, planned, sorted⟩ := right.planned
  obtain ⟨answered, recorded, sent⟩ := right.recorded
  have table := planned.counted.table
  obtain ⟨p, live, waits⟩ := (planned.counted.queue entry).mp (front ▸ List.mem_cons_self)
  have limit : p.iters ≤ VdfClient.nIters := by
    rw [itersOf_eq live.entry] at reached
    exact reached.trans (client.kept.last.trans_eq client.kept.target)
  have next := planned.startProof sorted started
  simp only [VdfProofs.startProof, front, proofAt_eq live.entry, Exec.done_bind] at started
  obtain rfl := Exec.done.inj started
  refine ⟨⟨heads, next⟩, right.small, right.reads, ⟨answered, recorded.start table live waits limit, ?_⟩, right.answers⟩
  simp only [setFlag]
  rw [itersOf_set live (flagged_started (table.flags live))]
  exact sent

theorem Right.read {arith : FormArith} (squares : arith.Squares x) (right : s.Right env x)
    (client : s.client.Right arith x idx) (valid : s.client.vdf.validValues pos = true) :
    (s.read entry pos).Right env x := by
  refine ⟨right.planned, right.small, fun e q f found => ?_, right.recorded, right.answers⟩
  obtain ⟨g, stored, rep⟩ := (client.vdf.collected squares).holds pos valid
  by_cases same : e = entry
  · subst same
    by_cases here : q = pos
    · subst here
      simp only [ProofClient.read, Function.update_self] at found
      obtain rfl := Option.some.inj (stored.symm.trans found)
      exact ⟨rep, client.kept.values q g stored⟩
    · simp only [ProofClient.read, Function.update_self, Function.update_of_ne here] at found
      exact right.reads e q f found
  · simp only [ProofClient.read, Function.update_of_ne same] at found
    exact right.reads e q f found

/-- The values that a thread has read are enough for an honest proof, if the reductions come back. -/
theorem Right.compute (bits : numBits d.D ≤ BQFC_MAX_D_BITS) (within : env.arith.Within d)
    (reduces : env.arith.Reduces d) (top : HashTopBit env) (right : s.Right env x) (running : s.Running entry p)
    (all : ∀ pos, (p.iters - p.segIters) / HW_VDF_VALUE_INTERVAL ≤ pos → pos ≤ p.iters / HW_VDF_VALUE_INTERVAL →
      (s.reads entry pos).isSome = true) :
    Exec.Within (fun segm => HonestSegment env (x ^ 2 ^ (p.iters - p.segIters)) (x ^ 2 ^ p.iters) segm ∧
        segm.length = UInt64.ofNat p.segIters ∧ p.iters < 2 ^ 43 ∧ NearlyReduced segm.y ∧ NearlyReduced segm.proof)
      (computeSegment env d.D (s.value entry) p.iters p.segIters) := by
  obtain ⟨live, started, -⟩ := running
  obtain ⟨heads, planned, -⟩ := right.planned
  obtain ⟨answered, recorded, -⟩ := right.recorded
  have limit : p.iters < 2 ^ 43 := (recorded.started live started).trans_lt (by decide)
  obtain ⟨first, begins⟩ : ∃ first, p.iters = first * HW_VDF_VALUE_INTERVAL + p.segIters := by
    have table := planned.counted.table
    cases link : prevOf s.proofs.proofs entry with
    | none => exact ⟨0, by simpa using table.root live link⟩
    | some j =>
      obtain ⟨q, at_j, chkp, sum, -⟩ := table.link live link
      obtain ⟨first, multiple⟩ := table.chkp at_j chkp
      exact ⟨first, by rw [sum, multiple, Nat.mul_comm]⟩
  have place : p.iters - p.segIters = first * HW_VDF_VALUE_INTERVAL := by omega
  have finds : HwProver.Finds NearlyReduced x (s.value entry) first (p.iters / HW_VDF_VALUE_INTERVAL) := by
    intro pos low high
    rw [place, Nat.mul_div_cancel first (by decide)] at all
    obtain ⟨f, read⟩ := Option.isSome_iff_exists.mp (all pos low high)
    obtain ⟨rep, nearly⟩ := right.reads entry pos f read
    exact ⟨f, by simp only [value, read], rep, nearly⟩
  rw [begins] at finds limit
  have lawful : env.completed.arith.Lawful d := within.completed
  have top' : HashTopBit env.completed := top
  obtain ⟨segm, run, honest, length, nearlyY, nearly⟩ :=
    HwProver.computeSegment_spec bits lawful reduces.completed top' limit finds
  rw [← begins] at run honest limit
  rw [← place] at honest
  have below := HwProver.computeSegment_below env.below_completed (D := d.D) (s.value entry) p.iters p.segIters
  exact below.within run ⟨honest.completed, length, limit, nearlyY, nearly⟩

variable (std) in
/-- A thread whose reductions have come back ends with the entry written. -/
theorem Right.finish_done (bits : numBits d.D ≤ BQFC_MAX_D_BITS) (within : env.arith.Within d)
    (reduces : env.arith.Reduces d) (top : HashTopBit env) (right : s.Right env x) {out : SegmentBytes}
    (running : s.Running entry p)
    (all : ∀ pos, (p.iters - p.segIters) / HW_VDF_VALUE_INTERVAL ≤ pos → pos ≤ p.iters / HW_VDF_VALUE_INTERVAL →
      (s.reads entry pos).isSome = true) (fits : s.Writes env d.D entry) {segm : Segment}
    (computed : computeSegment env d.D (s.value entry) p.iters p.segIters = .done segm) :
    ∃ u, s.step env std d.D d.L idx (.finish entry out) = .done u ∧ u.Right env x := by
  obtain ⟨honest, length, small, nearlyY, nearly⟩ := (right.compute bits within reduces top running all).value computed
  obtain ⟨live, started, open_⟩ := running
  obtain ⟨settledY, settled⟩ := fits p segm live.entry computed
  obtain ⟨bytes, wrote, written⟩ := HwProver.writeSegment_spec bits top honest nearlyY nearly settledY settled
    (p.has HW_VDF_PROOF_FLAG_IS_REQ) out
  have check := HwProver.check_of_verifyProof honest nearly settled (HwProver.computeSegment_verified computed)
  have proven : Proven env x p bytes segm := ⟨honest, check, length, small.trans (by norm_num), written⟩
  obtain ⟨heads, planned, sorted⟩ := right.planned
  obtain ⟨answered, recorded, sent⟩ := right.recorded
  have table := planned.counted.table
  obtain ⟨proofs, finished⟩ : ∃ proofs, s.proofs.finishProof entry = .done proofs := by
    simp only [VdfProofs.finishProof, proofAt_eq live.entry, Exec.done_bind]
    exact ⟨_, rfl⟩
  have run : s.step env std d.D d.L idx (.finish entry out) =
      .done { s with proofs := proofs, bytes := Function.update s.bytes entry bytes } := by
    simp only [step, ProofClient.finish, proofAt_eq live.entry, hwComputeProof, computed, wrote, finished,
      Exec.done_bind,
      Exec.pure_eq]
  refine ⟨_, run, ?_⟩
  have next := planned.finishProof sorted live started finished
  simp only [VdfProofs.finishProof, proofAt_eq live.entry, Exec.done_bind] at finished
  obtain rfl := Exec.done.inj finished
  refine ⟨⟨heads, next⟩, right.small, right.reads, ⟨answered, recorded.finish table live started open_ proven, ?_⟩,
    right.answers⟩
  simp only [setFlag]
  rw [itersOf_set live (flagged_done (table.flags live))]
  exact sent

variable (std) in
theorem Right.finish (bits : numBits d.D ≤ BQFC_MAX_D_BITS) (within : env.arith.Within d)
    (reduces : env.arith.Reduces d) (top : HashTopBit env) (right : s.Right env x) {out : SegmentBytes}
    (enabled : s.Enabled idx (.finish entry out)) (fits : s.Writes env d.D entry) :
    Exec.Within (fun u => u.Right env x) (s.step env std d.D d.L idx (.finish entry out)) := by
  obtain ⟨p, running, all⟩ := enabled
  have computes := right.compute bits within reduces top running all
  cases computed : computeSegment env d.D (s.value entry) p.iters p.segIters with
  | done segm =>
    obtain ⟨u, run, after⟩ : ∃ u, s.step env std d.D d.L idx (.finish entry out) = .done u ∧ u.Right env x :=
      right.finish_done std bits within reduces top running all fits computed
    rw [run]
    exact after
  | diverged =>
    simp only [step, ProofClient.finish, proofAt_eq running.1.entry, hwComputeProof, Exec.done_bind, computed]
    trivial
  | thrown =>
    rw [computed] at computes
    exact computes.elim
  | fault =>
    rw [computed] at computes
    exact computes.elim

end Steps

section Sending

theorem Right.asked (right : s.Right env x) (live : LiveAt s.proofs.proofs entry p)
    (request : p.has HW_VDF_PROOF_FLAG_IS_REQ = true) : p.iters ∈ s.requested := by
  obtain ⟨heads, planned, -⟩ := right.planned
  apply planned.places.mem_iff.mp
  apply List.mem_append_right
  exact List.mem_map.mpr ⟨entry, (planned.requests entry).mpr ⟨p, live, request⟩, itersOf_eq live.entry⟩

/-- What a turn of the loop takes from the list and sends. -/
def sentWith (s : ProofClient) (doneProofs : List ℕ) (message : ℕ × ByteString) : ProofClient :=
  { s with proofs := { s.proofs with doneProofs := doneProofs }, sent := s.sent ++ [message] }

theorem Right.send_cases (bits : numBits d.D ≤ BQFC_MAX_D_BITS) (within : env.arith.Within d) (top : HashTopBit env)
    (right : s.Right env x) (data : Vector UInt8 HwMessage.dataSize) :
    (s.sendNext data = .done none ∧ ∀ entry ∈ s.proofs.doneProofs, ∀ p l,
      Chained (finished s.proofs.proofs s.bytes) entry p l → ¬HwMessage.Done l) ∨
    ∃ before entry after p message, s.proofs.doneProofs = before ++ entry :: after ∧ LiveAt s.proofs.proofs entry p ∧
      Answers env x p.iters message ∧
      s.sendNext data = .done (some (s.sentWith (before ++ after) (p.iters, message))) := by
  obtain ⟨heads, planned, -⟩ := right.planned
  obtain ⟨answered, recorded, -⟩ := right.recorded
  have table := planned.counted.table
  have chains : ∀ entry ∈ s.proofs.doneProofs, ∃ p l, Chained (finished s.proofs.proofs s.bytes) entry p l := by
    intro entry member
    obtain ⟨p, live, -⟩ := (recorded.listed entry).mp (List.mem_append_right _ member)
    exact ⟨_, table.chained s.bytes live⟩
  rcases HwMessage.retrieveProof_spec (2 ^ 16) (by norm_num) s.proofs.doneProofs chains with
    ⟨none, unfinished⟩ | ⟨before, entry, after, q, l, split, chained, done, retrieved⟩
  · exact .inl ⟨by simp only [sendNext, none, Exec.done_bind], unfinished⟩
  · have member : entry ∈ answered ++ s.proofs.doneProofs := by simp [split]
    obtain ⟨p, live, ends, request⟩ := (recorded.listed entry).mp member
    obtain rfl := Option.some.inj ((finished_entry live.entry).symm.trans chained.entry)
    obtain ⟨segments, last, chain⟩ := table.provenChain (fun live done => (recorded.done live done).2) live ends
      chained.preds done
    obtain ⟨writes, sends, -⟩ := HwMessage.sendProof_spec chained.preds data
    have positive := (right.small p.iters (right.asked live request)).1
    have answer := chain.answers bits within top chained.short positive chained.preds sends
    refine .inr ⟨before, entry, after, p, writes.flatten, split, live, answer, ?_⟩
    simp only [sendNext, retrieved, Exec.done_bind, HwMessage.proofAt_done chained.entry, sends, Exec.pure_eq]
    rfl

theorem Right.sentWith (right : s.Right env x) {before after : List ℕ} {message : ByteString}
    (split : s.proofs.doneProofs = before ++ entry :: after) (live : LiveAt s.proofs.proofs entry p)
    (answer : Answers env x p.iters message) : (s.sentWith (before ++ after) (p.iters, message)).Right env x := by
  obtain ⟨heads, planned, sorted⟩ := right.planned
  obtain ⟨answered, recorded, sent⟩ := right.recorded
  rw [split] at recorded
  refine ⟨⟨heads, { planned with }, sorted⟩, right.small, right.reads, ⟨_, recorded.answer, ?_⟩, ?_⟩
  · simp [ProofClient.sentWith, sent, itersOf_eq live.entry]
  · intro m member
    rcases List.mem_append.mp member with old | new
    · exact right.answers m old
    · obtain rfl := List.mem_singleton.mp new
      exact answer

variable (std idx) in
theorem Right.send (bits : numBits d.D ≤ BQFC_MAX_D_BITS) (within : env.arith.Within d) (top : HashTopBit env)
    (right : s.Right env x) (data : Vector UInt8 HwMessage.dataSize) :
    ∃ t, s.step env std d.D d.L idx (.send data) = .done t ∧ t.Right env x := by
  rcases right.send_cases bits within top data with ⟨run, -⟩ | ⟨before, entry, after, p, message, split, live, answer,
    run⟩
  · exact ⟨s, by simp [step, run], right⟩
  · exact ⟨_, by simp only [step, run, Exec.done_bind, Option.getD_some, Exec.pure_eq],
      right.sentWith split live answer⟩

/-- Nothing is left that a thread or the planner has to do. -/
structure Idle (s : ProofClient) : Prop where
  reqProofs : s.proofs.reqProofs = []
  done : ∀ entry p, LiveAt s.proofs.proofs entry p → p.has HW_VDF_PROOF_FLAG_DONE = true

theorem Right.all_sent (right : s.Right env x) (idle : s.Idle) (none : s.proofs.doneProofs = []) :
    (s.sent.map Prod.fst).Perm s.requested := by
  obtain ⟨heads, planned, -⟩ := right.planned
  obtain ⟨answered, recorded, sent⟩ := right.recorded
  have once := recorded.once
  have listed := recorded.listed
  have places := planned.places
  rw [none, List.append_nil] at once
  simp only [none, List.append_nil] at listed
  rw [idle.reqProofs, List.map_nil, List.nil_append] at places
  have same : answered.Perm heads := by
    apply (List.perm_ext_iff_of_nodup once planned.once).mpr
    intro i
    rw [listed, planned.requests]
    constructor
    · rintro ⟨p, live, -, request⟩
      exact ⟨p, live, request⟩
    · rintro ⟨p, live, request⟩
      exact ⟨p, live, idle.done i p live, request⟩
  rw [sent]
  exact (same.map _).trans places

theorem Right.none_unsent (right : s.Right env x) (idle : s.Idle) (unfinished : ∀ entry ∈ s.proofs.doneProofs, ∀ p l,
    Chained (finished s.proofs.proofs s.bytes) entry p l → ¬HwMessage.Done l) : s.proofs.doneProofs = [] := by
  obtain ⟨heads, planned, -⟩ := right.planned
  obtain ⟨answered, recorded, -⟩ := right.recorded
  apply List.eq_nil_iff_forall_not_mem.mpr
  intro entry member
  obtain ⟨p, live, -⟩ := (recorded.listed entry).mp (List.mem_append_right _ member)
  obtain ⟨l, chained⟩ := planned.counted.table.chained s.bytes live
  apply unfinished entry member _ l chained
  exact planned.counted.table.preds_done (fun live => idle.done _ _ live) live chained.preds

theorem Right.handleProofs (bits : numBits d.D ≤ BQFC_MAX_D_BITS) (within : env.arith.Within d) (top : HashTopBit env)
    (right : s.Right env x) (idle : s.Idle) (data : ℕ → Vector UInt8 HwMessage.dataSize) {fuel : ℕ}
    (turns : s.proofs.doneProofs.length < fuel) : ∃ t, handleProofs data fuel s = .done t ∧ t.Right env x ∧ t.Idle ∧
      t.proofs.doneProofs = [] ∧ t.requested = s.requested := by
  induction fuel generalizing s with
  | zero => omega
  | succ fuel ih =>
    rcases right.send_cases bits within top (data fuel) with
      ⟨run, unfinished⟩ | ⟨before, entry, after, p, message, split, live, answer, run⟩
    · exact ⟨s, by simp only [ProofClient.handleProofs, run, Exec.done_bind], right, idle,
        right.none_unsent idle unfinished, rfl⟩
    · rw [split] at turns
      obtain ⟨t, rest, right', idle', empty, same⟩ :=
        ih (right.sentWith split live answer) ⟨idle.reqProofs, idle.done⟩ (by
        simp only [ProofClient.sentWith, List.length_append, List.length_cons] at turns ⊢
        omega)
      exact ⟨t, by simp only [ProofClient.handleProofs, run, Exec.done_bind, rest], right', idle', empty, same⟩

end Sending

section Runs

theorem Enabled.client {event : VdfClient.Event} (enabled : s.Enabled idx (.client event)) :
    s.client.Enabled idx event := by
  cases event with
  | vdf event =>
    cases event with
    | startProof i => exact enabled.elim
    | _ => exact enabled
  | _ => exact enabled

/-- The VDF does not notice its proofs. -/
theorem Reachable.client (reachable : Reachable env std x idx s) : s.client.Reachable env.arith x idx := by
  induction reachable with
  | init reachable => exact reachable
  | @step s t event _ enabled run _ ih =>
    cases event with
    | client event =>
      obtain ⟨client, moved, last⟩ := Exec.bind_eq_done.mp run
      obtain rfl := Exec.done.inj last
      exact ih.step (Enabled.client enabled) moved
    | request n =>
      obtain rfl := Exec.done.inj run
      exact ih
    | plan =>
      obtain ⟨proofs, -, last⟩ := Exec.bind_eq_done.mp run
      obtain rfl := Exec.done.inj last
      exact ih
    | start i =>
      obtain ⟨client, moved, run⟩ := Exec.bind_eq_done.mp run
      obtain ⟨proofs, -, last⟩ := Exec.bind_eq_done.mp run
      obtain rfl := Exec.done.inj last
      have enabled : s.client.Enabled idx (.vdf (.startProof i)) := trivial
      exact ih.step enabled moved
    | read entry pos =>
      obtain rfl := Exec.done.inj run
      exact ih
    | finish entry out =>
      obtain ⟨p, -, run⟩ := Exec.bind_eq_done.mp run
      obtain ⟨bytes, -, run⟩ := Exec.bind_eq_done.mp run
      obtain ⟨proofs, -, last⟩ := Exec.bind_eq_done.mp run
      obtain rfl := Exec.done.inj last
      exact ih
    | send data =>
      obtain ⟨next, sends, last⟩ := Exec.bind_eq_done.mp run
      obtain rfl := Exec.done.inj last
      obtain ⟨found, -, sends⟩ := Exec.bind_eq_done.mp sends
      cases found with
      | none =>
        obtain rfl := Exec.done.inj sends
        exact ih
      | some found =>
        obtain ⟨p, -, sends⟩ := Exec.bind_eq_done.mp sends
        obtain ⟨writes, -, last⟩ := Exec.bind_eq_done.mp sends
        obtain rfl := Exec.done.inj last
        exact ih

theorem abs_D_lt (bits : numBits d.D ≤ BQFC_MAX_D_BITS) : |d.D| < 2 ^ 1090 := by
  have below : d.D.natAbs < 2 ^ numBits d.D := (natAbs_lt_iff_sizeinbase2_le (Bqfc.numBits_pos _)).mpr le_rfl
  have room : (2 : ℕ) ^ numBits d.D ≤ 2 ^ 1090 := Nat.pow_le_pow_right (by norm_num) (bits.trans (by decide))
  rw [Int.abs_eq_natAbs]
  exact_mod_cast below.trans_le room

theorem init_right (client : VdfClient) (bytes : ℕ → SegmentBytes) :
    Right env x ⟨client, ⟨[], [], [], []⟩, fun _ _ => none, bytes, [], []⟩ := by
  obtain ⟨⟨heads, planned, sorted⟩, -⟩ :=
    (VdfProofs.Run.init : VdfProofs.Run insertionStd VdfProofs.Fits [] ⟨[], [], [], []⟩).planned
  have empty {i : ℕ} {p : VdfProof} : ¬LiveAt [] i p := fun live => by simpa using live.entry
  refine ⟨⟨heads, planned, sorted⟩, by simp, by simp, ⟨[], ⟨?_, ?_, by simp, by simp [empty]⟩, rfl⟩, by simp⟩
  · exact fun live => absurd live empty
  · exact fun live => absurd live empty

/-- Whether or not the reducer comes back, the client is right as over an arithmetic that always does. -/
theorem Reachable.client_right (bits : numBits d.D ≤ BQFC_MAX_D_BITS) (inside : idx < Emulator.N_VDFS)
    (squares : env.arith.completed.Squares x) (reachable : Reachable env std x idx s) :
    s.client.Right env.arith.completed x idx :=
  reachable.client.completed.right (abs_D_lt bits) inside squares

theorem Reachable.right (bits : numBits d.D ≤ BQFC_MAX_D_BITS) (inside : idx < Emulator.N_VDFS)
    (within : env.arith.Within d) (reduces : env.arith.Reduces d) (top : HashTopBit env)
    (reachable : Reachable env std x idx s) : s.Right env x := by
  have squares := within.completed.squares reduces.completed x
  induction reachable with
  | init reachable => exact init_right ..
  | @step s t event reachable enabled run fits ih =>
    have client := reachable.client_right bits inside squares
    cases event with
    | client event =>
      obtain ⟨client', -, last⟩ := Exec.bind_eq_done.mp run
      obtain rfl := Exec.done.inj last
      exact ⟨ih.planned, ih.small, ih.reads, ih.recorded, ih.answers⟩
    | request n => exact ih.request fits.1 fits.2 run
    | plan => exact ih.plan run fits
    | start i => exact ih.start client enabled run
    | read entry pos =>
      obtain rfl := Exec.done.inj run
      exact ih.read squares client enabled.2
    | finish entry out => exact (ih.finish std bits within reduces top enabled fits).value run
    | send data =>
      obtain ⟨u, run', right⟩ := ih.send std idx bits within top data
      obtain rfl := Exec.done.inj (run.symm.trans run')
      exact right

end Runs

section First

variable {client : VdfClient} {proofs : VdfProofs} {reads : ℕ → ℕ → Option Form} {bytes : ℕ → SegmentBytes}
  {requested : List ℕ} {sent : List (ℕ × ByteString)}

theorem Reachable.request (reachable : Reachable env std x idx ⟨client, proofs, reads, bytes, requested, sent⟩) {n : ℕ}
    (positive : 0 < n) (small : n * 92 < 2 ^ 64) :
    Reachable env std x idx ⟨client, proofs.requestProof std n false, reads, bytes, n :: requested, sent⟩ := by
  have enabled : (⟨client, proofs, reads, bytes, requested, sent⟩ : ProofClient).Enabled idx (.request n) := trivial
  exact reachable.step enabled rfl ⟨positive, small⟩

theorem Reachable.plan (reachable : Reachable env std x idx ⟨client, proofs, reads, bytes, requested, sent⟩)
    (enabled : client.vdf.eventLoop = .startingProofs) {proofs' : VdfProofs}
    (turn : proofs.planTurn std = .done proofs')
    (small : proofs'.proofs.length ≤ HW_VDF_PROOF_NONE) :
    Reachable env std x idx ⟨client, proofs', reads, bytes, requested, sent⟩ := by
  have enabled : (⟨client, proofs, reads, bytes, requested, sent⟩ : ProofClient).Enabled idx .plan := enabled
  have run : (⟨client, proofs, reads, bytes, requested, sent⟩ : ProofClient).step env std d.D d.L idx .plan =
      .done ⟨client, proofs', reads, bytes, requested, sent⟩ := by
    simp only [ProofClient.step, turn, Exec.done_bind, Exec.pure_eq]
  exact reachable.step enabled run small

theorem Reachable.start (reachable : Reachable env std x idx ⟨client, proofs, reads, bytes, requested, sent⟩)
    (starting : client.vdf.eventLoop = .startingProofs) {i : ℕ} (free : client.vdf.auxThreadsBusy i = false)
    {queued : List ℕ} (front : proofs.queuedProofs = entry :: queued)
    (reached : itersOf proofs.proofs entry ≤ client.vdf.lastVal.iters) {proofs' : VdfProofs}
    (started : proofs.startProof = .done proofs') :
    Reachable env std x idx
      ⟨client.withVdf (client.vdf.setAuxThread i .computeProof), proofs', reads, bytes, requested, sent⟩ := by
  have enabled : (⟨client, proofs, reads, bytes, requested, sent⟩ : ProofClient).Enabled idx (.start i) :=
    ⟨starting, free, entry, queued, front, reached⟩
  have moved : client.step env.arith d.D d.L idx (.vdf (.startProof i)) =
      .done (client.withVdf (client.vdf.setAuxThread i .computeProof)) := by
    simp [VdfClient.step, VdfState.step, starting, free]
  refine reachable.step enabled ?_ trivial
  simp only [ProofClient.step, ProofClient.start, moved, started, Exec.done_bind, Exec.pure_eq]

theorem Reachable.read (reachable : Reachable env std x idx ⟨client, proofs, reads, bytes, requested, sent⟩)
    (running : (⟨client, proofs, reads, bytes, requested, sent⟩ : ProofClient).Running entry p)
    (valid : client.vdf.validValues pos = true) :
    Reachable env std x idx (ProofClient.read ⟨client, proofs, reads, bytes, requested, sent⟩ entry pos) := by
  have enabled : (⟨client, proofs, reads, bytes, requested, sent⟩ : ProofClient).Enabled idx (.read entry pos) :=
    ⟨⟨p, running⟩, valid⟩
  exact reachable.step enabled rfl trivial

theorem computeSegment_first {turns : ℕ} (enough : 2 ≤ turns) {value : ℕ → Exec Form}
    (read : value 0 = .done ⟨2, 1, 3⟩) :
    computeSegment (constantHash turns) (-23) value 1 1 =
      .done ⟨UInt64.ofNat 0, UInt64.ofNat 1, ⟨2, 1, 3⟩, ⟨2, -1, 3⟩, ⟨1, 1, 6⟩, false⟩ := by
  have root : mpzRoot4 (- -23) = .done 2 := by decide +kernel
  have hash : (constantHash turns).getB (-23) ⟨2, 1, 3⟩ ⟨2, -1, 3⟩ = .done (2 ^ 263 : ℕ) :=
    show (constantHash 0).getB (-23) ⟨2, 1, 3⟩ ⟨2, -1, 3⟩ = _ by decide +kernel
  have fixes : (constantHash turns).arith.Fixes ⟨1, 1, 6⟩ (-23) 2 := FormArith.inPlace_fixes_23 (by omega)
  have squared : HwProver.squareOn (constantHash turns) (-23) 2 ⟨2, 1, 3⟩ 1 = .done ⟨2, -1, 3⟩ := by
    have double : (constantHash turns).arith.nudupl ⟨2, 1, 3⟩ (-23) 2 = .done ⟨3, 1, 2⟩ :=
      show (FormArith.inPlace 0).nudupl ⟨2, 1, 3⟩ (-23) 2 = _ by decide +kernel
    have reduced : (constantHash turns).arith.reduce ⟨3, 1, 2⟩ = .done ⟨2, -1, 3⟩ :=
      Reducer.run_mono enough _ _ (show Reducer.run 2 ⟨3, 1, 2⟩ = _ by decide +kernel)
    simp [HwProver.squareOn, Exec.forLoop, double, reduced]
  have power : (constantHash turns).arith.fastPowFormNucomp ⟨2, 1, 3⟩ (-23) 2 2 = .done ⟨2, -1, 3⟩ :=
    FormArith.fastPow_mono enough _
      (show (FormArith.inPlace 2).fastPowFormNucomp ⟨2, 1, 3⟩ (-23) 2 2 = _ by decide +kernel)
  have product : Form.multiply ⟨1, 1, 6⟩ ⟨2, -1, 3⟩ = .done ⟨2, -1, 3⟩ := by decide +kernel
  have generated : HwProver.generateProof (constantHash turns) (-23) value
      ⟨UInt64.ofNat 0, UInt64.ofNat 1, ⟨2, 1, 3⟩, ⟨2, -1, 3⟩, ⟨0, 0, 0⟩, false⟩ = .done ⟨1, 1, 6⟩ := by
    have fits : GroupArith.FitsWords 1 2 2000 := ⟨by norm_num, by norm_num, by norm_num, by norm_num, by norm_num⟩
    have two : HwProver.findK (UInt64.ofNat 1).toNat = 2 := by decide
    have large : 2 ^ 2 ≤ 2 ^ 263 := Nat.pow_le_pow_right (by norm_num) (by norm_num)
    simp only [HwProver.generateProof, two, hash, root, fixes.identity, Exec.done_bind]
    exact GroupArith.parallelProof_short fixes fits large (by decide) _
  have verified : HwProver.verifyProof (constantHash turns) (-23)
      ⟨UInt64.ofNat 0, UInt64.ofNat 1, ⟨2, 1, 3⟩, ⟨2, -1, 3⟩, ⟨1, 1, 6⟩, false⟩ = .done true := by
    have reduceX : Form.reduce ⟨2, 1, 3⟩ = .done ⟨2, 1, 3⟩ := by decide +kernel
    have reduceY : Form.reduce ⟨2, -1, 3⟩ = .done ⟨2, -1, 3⟩ := by decide +kernel
    have rest : fastPow (UInt64.ofNat 1) (2 ^ 263 : ℕ) = .done 2 := by decide +kernel
    simp only [HwProver.verifyProof, reduceX, reduceY, VerifierEnv.verifyWesolowskiProof, root, hash, rest,
      fixes.fastPow, power, product, Exec.done_bind]
    rfl
  simp only [computeSegment, show sub64 1 1 = 0 by decide, show sub64 1 0 = 1 by decide, Nat.zero_div, read, root,
    show 1 / HW_VDF_VALUE_INTERVAL = 0 by decide, Nat.zero_mul, Nat.sub_zero, squared, generated, verified,
      Exec.done_bind,
    HwProver.checkValid_done (show BinaryForm.disc ⟨2, 1, 3⟩ = -23 by decide),
    HwProver.checkValid_done (show BinaryForm.disc ⟨2, -1, 3⟩ = -23 by decide)]
  rfl

theorem writes_first {turns : ℕ} (enough : 2 ≤ turns) (read : s.value 0 0 = .done ⟨2, 1, 3⟩)
    (proofs : s.proofs = ⟨[], [⟨1, 1, 6, HW_VDF_PROOF_NONE, 1⟩], [], []⟩) : s.Writes (constantHash turns) (-23) 0 := by
  intro p segm at_0 run
  rw [proofs] at at_0
  obtain rfl := Option.some.inj at_0
  obtain rfl := Exec.done.inj ((computeSegment_first enough read).symm.trans run)
  constructor <;> decide

theorem exists_running : ∃ enough, ∀ turns ≥ enough, 2 ≤ turns ∧
    ∃ (x : ReducedForm ⟨23, by norm_num, rfl⟩) (s : ProofClient), x.form = ⟨2, 1, 3⟩ ∧
      Reachable (constantHash turns) insertionStd x 1 s ∧
      s.proofs = ⟨[], [⟨1, 1, 6, HW_VDF_PROOF_NONE, 1⟩], [], []⟩ ∧ s.requested = [1] ∧ s.sent = [] ∧
      s.value 0 0 = .done ⟨2, 1, 3⟩ ∧ ∀ out, s.Enabled 1 (.finish 0 out) := by
  let y : ReducedForm ⟨23, by norm_num, rfl⟩ := ⟨⟨2, 1, 3⟩, by decide, rfl⟩
  obtain ⟨enough, squares⟩ := (VdfState.squaresReturn_23 y).squares
  refine ⟨max enough 2, fun turns le => ⟨le_of_max_le_right le, ?_⟩⟩
  obtain ⟨x, client, first, reachable, starting, last, marked, value, idle⟩ :=
    VdfClient.exists_swapped fun x same => by
      obtain rfl : x = y := ReducedForm.ext same
      exact squares turns (le_of_max_le_left le)
  let bytes : SegmentBytes := ⟨Vector.replicate _ 0, Vector.replicate _ 0, Vector.replicate _ 0⟩
  have begun : Reachable (constantHash turns) insertionStd x 1
      ⟨client, ⟨[], [], [], []⟩, fun _ _ => none, fun _ => bytes, [], []⟩ := .init reachable
  have asked := begun.request (show 0 < 1 by decide) (by decide)
  have turn : (⟨[⟨1, false⟩], [], [], []⟩ : VdfProofs).planTurn insertionStd =
      .done ⟨[], [⟨1, 1, 2, HW_VDF_PROOF_NONE, 1⟩], [0], []⟩ := rfl
  have planned := asked.plan starting turn (by decide)
  have front : (⟨[], [⟨1, 1, 2, HW_VDF_PROOF_NONE, 1⟩], [0], []⟩ : VdfProofs).startProof =
      .done ⟨[], [⟨1, 1, 6, HW_VDF_PROOF_NONE, 1⟩], [], []⟩ := rfl
  have started := planned.start starting idle rfl (last.ge.trans' (by decide)) front
  have running : ∀ client reads, (⟨client, ⟨[], [⟨1, 1, 6, HW_VDF_PROOF_NONE, 1⟩], [], []⟩, reads, fun _ => bytes,
      [1], []⟩ : ProofClient).Running 0 ⟨1, 1, 6, HW_VDF_PROOF_NONE, 1⟩ := fun _ _ =>
        ⟨⟨rfl, by decide⟩, by decide, by decide⟩
  have stored : (client.withVdf (client.vdf.setAuxThread 0 .computeProof)).vdf.values 0 = some ⟨2, 1, 3⟩ := value
  refine ⟨x, _, first, started.read (running _ _) marked, rfl, rfl, rfl, ?_, fun out =>
    ⟨_, running _ _, fun pos _ below => ?_⟩⟩
  · simp [ProofClient.value, ProofClient.read, stored]
  · obtain rfl : pos = 0 := Nat.le_zero.mp below
    simp [ProofClient.read, stored]

theorem finish_first {turns : ℕ} {x : ReducedForm ⟨23, by norm_num, rfl⟩} (enough : 2 ≤ turns)
    (reachable : Reachable (constantHash turns) insertionStd x 1 s) (read : s.value 0 0 = .done ⟨2, 1, 3⟩)
    (proofs : s.proofs = ⟨[], [⟨1, 1, 6, HW_VDF_PROOF_NONE, 1⟩], [], []⟩) {out : SegmentBytes}
    (enabled : s.Enabled 1 (.finish 0 out)) :
    ∃ t, s.step (constantHash turns) insertionStd (-23) (Discriminant.L ⟨23, by norm_num, rfl⟩) 1 (.finish 0 out) =
      .done t := by
  have within := FormArith.inPlace_within turns ⟨23, by norm_num, rfl⟩
  have reduces := FormArith.inPlace_reduces turns ⟨23, by norm_num, rfl⟩
  have right := reachable.right (by decide) (by decide) within reduces (constantHash_top turns)
  obtain ⟨p, running, all⟩ := enabled
  obtain rfl : p = ⟨1, 1, 6, HW_VDF_PROOF_NONE, 1⟩ := by
    have entry := running.1.entry
    rw [proofs] at entry
    exact (Option.some.inj entry).symm
  obtain ⟨t, run, -⟩ := right.finish_done insertionStd (by decide) within reduces (constantHash_top turns) running all
    (writes_first enough read proofs) (computeSegment_first enough read)
  exact ⟨t, run⟩

theorem exists_finished : ∃ enough, ∀ turns ≥ enough, ∃ (x : ReducedForm ⟨23, by norm_num, rfl⟩) (s : ProofClient),
    x.form = ⟨2, 1, 3⟩ ∧ Reachable (constantHash turns) insertionStd x 1 s ∧ s.Idle ∧ s.proofs.doneProofs = [0] ∧
      s.requested = [1] ∧ s.sent = [] := by
  obtain ⟨enough, runs⟩ := exists_running
  refine ⟨enough, fun turns le => ?_⟩
  obtain ⟨two, x, s, first, reachable, proofs, requested, sent, read, enabled⟩ := runs turns le
  let bytes : SegmentBytes := ⟨Vector.replicate _ 0, Vector.replicate _ 0, Vector.replicate _ 0⟩
  obtain ⟨t, run⟩ := finish_first two reachable read proofs (enabled bytes)
  have finished := reachable.step (enabled bytes) run (writes_first two read proofs)
  obtain ⟨p, -, run⟩ := Exec.bind_eq_done.mp run
  obtain ⟨out, -, run⟩ := Exec.bind_eq_done.mp run
  obtain ⟨ended, finish, last⟩ := Exec.bind_eq_done.mp run
  obtain rfl := Exec.done.inj last
  rw [proofs] at finish
  obtain rfl := Exec.done.inj finish
  refine ⟨x, _, first, finished, ⟨rfl, fun entry p live => ?_⟩, rfl, requested, sent⟩
  have member := List.mem_of_getElem? live.entry
  obtain rfl := List.mem_singleton.mp member
  decide

end First

section Answered

variable {turns : ℕ} {hash : ByteString → Exec ℤ}

/-- In every run of the client, each message that is sent is a proof that the verifier accepts for a number of
iterations that was asked for, and no request is answered more often than it was made. -/
theorem requests_answered (bits : numBits d.D ≤ BQFC_MAX_D_BITS) (inside : idx < Emulator.N_VDFS)
    (top : HashTopBit ⟨.inPlace turns, hash⟩) (reachable : Reachable ⟨.inPlace turns, hash⟩ std x idx s) :
    (∀ message ∈ s.sent, Answers ⟨.inPlace turns, hash⟩ x message.1 message.2) ∧
      (s.sent.map Prod.fst).Subperm s.requested := by
  have right := reachable.right bits inside (FormArith.inPlace_within turns d) (FormArith.inPlace_reduces turns d) top
  obtain ⟨heads, planned, -⟩ := right.planned
  obtain ⟨answered, recorded, sent⟩ := right.recorded
  refine ⟨right.answers, ?_⟩
  have some_of : answered.Subperm heads := by
    apply List.subperm_of_subset (List.nodup_append.mp recorded.once).1
    intro i member
    obtain ⟨p, live, -, request⟩ := (recorded.listed i).mp (List.mem_append_left _ member)
    exact (planned.requests i).mpr ⟨p, live, request⟩
  obtain ⟨l, same, part⟩ := some_of
  have places : (l.map (itersOf s.proofs.proofs)).Subperm s.requested :=
    ((part.map _).trans (List.sublist_append_right _ _)).subperm.trans planned.places.subperm
  rw [sent]
  exact (same.map _).symm.subperm.trans places

/-- A request for one iteration is answered. -/
theorem requests_answered_first : ∃ enough, ∀ turns ≥ enough,
    ∃ (x : ReducedForm ⟨23, by norm_num, rfl⟩) (s : ProofClient) (message : ByteString), x.form = ⟨2, 1, 3⟩ ∧
      Reachable (constantHash turns) insertionStd x 1 s ∧ s.sent = [(1, message)] ∧
      Answers (constantHash turns) x 1 message := by
  obtain ⟨enough, runs⟩ := exists_finished
  refine ⟨enough, fun turns le => ?_⟩
  obtain ⟨x, s, first, reachable, idle, waits, requested, sent⟩ := runs turns le
  have within := FormArith.inPlace_within turns ⟨23, by norm_num, rfl⟩
  have reduces := FormArith.inPlace_reduces turns ⟨23, by norm_num, rfl⟩
  have right := reachable.right (by decide) (by decide) within reduces (constantHash_top turns)
  let data : Vector UInt8 HwMessage.dataSize := Vector.replicate _ 0
  rcases right.send_cases (by decide) within (constantHash_top turns) data with
    ⟨-, unfinished⟩ | ⟨before, entry, after, p, message, -, -, -, run⟩
  · have none := right.none_unsent idle unfinished
    simp [waits] at none
  · have run : s.step (constantHash turns) insertionStd (-23) (Discriminant.L ⟨23, by norm_num, rfl⟩) 1 (.send data) =
        .done (s.sentWith (before ++ after) (p.iters, message)) := by
      simp only [step, run, Exec.done_bind, Option.getD_some, Exec.pure_eq]
    have enabled : s.Enabled 1 (.send data) := trivial
    have reachable := reachable.step enabled run trivial
    obtain ⟨answers, asked⟩ := requests_answered (by decide) (by decide) (constantHash_top turns) reachable
    have only : (s.sentWith (before ++ after) (p.iters, message)).sent = [(p.iters, message)] := by
      simp [sentWith, sent]
    rw [only] at answers asked
    have one : p.iters ∈ s.requested := asked.subset (by simp)
    obtain one : p.iters = 1 := by simpa [requested] using one
    have answer := answers _ List.mem_cons_self
    rw [one] at answer
    exact ⟨x, _, message, first, reachable, by rw [only, one], answer⟩

/-- When the planner and the threads have nothing left to do, `handle_proofs` answers all requests. -/
theorem all_answered (bits : numBits d.D ≤ BQFC_MAX_D_BITS) (inside : idx < Emulator.N_VDFS)
    (top : HashTopBit ⟨.inPlace turns, hash⟩) (reachable : Reachable ⟨.inPlace turns, hash⟩ std x idx s) (idle : s.Idle)
    (data : ℕ → Vector UInt8 HwMessage.dataSize) {fuel : ℕ} (more : s.proofs.doneProofs.length < fuel) :
    ∃ t, handleProofs data fuel s = .done t ∧
      (∀ message ∈ t.sent, Answers ⟨.inPlace turns, hash⟩ x message.1 message.2) ∧
      (t.sent.map Prod.fst).Perm s.requested := by
  have within := FormArith.inPlace_within turns d
  have right := reachable.right bits inside within (FormArith.inPlace_reduces turns d) top
  obtain ⟨t, run, right', idle', none, same⟩ := right.handleProofs bits within top idle data more
  exact ⟨t, run, right'.answers, same ▸ right'.all_sent idle' none⟩

theorem all_answered_first : ∃ enough, ∀ turns ≥ enough,
    ∃ (x : ReducedForm ⟨23, by norm_num, rfl⟩) (s t : ProofClient), x.form = ⟨2, 1, 3⟩ ∧
      Reachable (constantHash turns) insertionStd x 1 s ∧ handleProofs (fun _ => Vector.replicate _ 0) 2 s = .done t ∧
      (t.sent.map Prod.fst).Perm [1] := by
  obtain ⟨enough, runs⟩ := exists_finished
  refine ⟨enough, fun turns le => ?_⟩
  obtain ⟨x, s, first, reachable, idle, waits, requested, -⟩ := runs turns le
  obtain ⟨t, run, -, all⟩ := all_answered (by decide) (by decide) (constantHash_top turns)
    reachable idle (fun _ => Vector.replicate _ 0) (show _ < 2 by simp [waits])
  exact ⟨x, s, t, first, reachable, run, requested ▸ all⟩

/-- Neither the planner nor a thread of a proof aborts, throws or reads out of bounds, whatever comes next: the step is
done, unless it is one of those that reduce forms and the reducer does not come back. -/
theorem proofs_safe (bits : numBits d.D ≤ BQFC_MAX_D_BITS) (inside : idx < Emulator.N_VDFS)
    (top : HashTopBit ⟨.inPlace turns, hash⟩) (reachable : Reachable ⟨.inPlace turns, hash⟩ std x idx s) {event : Event}
    (enabled : s.Enabled idx event) (own : ∀ i k, event = .client (.thread i k) → i = idx)
    (writes : ∀ entry out, event = .finish entry out → s.Writes ⟨.inPlace turns, hash⟩ d.D entry) :
    (∃ t, s.step ⟨.inPlace turns, hash⟩ std d.D d.L idx event = .done t) ∨
      event.Reduces ∧ s.step ⟨.inPlace turns, hash⟩ std d.D d.L idx event = .diverged := by
  have within := FormArith.inPlace_within turns d
  have reduces := FormArith.inPlace_reduces turns d
  have squares := within.completed.squares reduces.completed x
  have client := reachable.client_right bits inside squares
  have right := reachable.right bits inside within reduces top
  obtain ⟨heads, planned, sorted⟩ := right.planned
  cases event with
  | client event =>
    obtain ⟨t, moved, -⟩ := client.step_done (abs_D_lt bits) inside squares (Enabled.client enabled)
      (fun i k same => own i k (by rw [same]))
    rcases VdfClient.step_completed event moved with done | ⟨calls, diverged⟩
    · exact .inl ⟨_, by simp only [step, done, Exec.done_bind, Exec.pure_eq]; rfl⟩
    · exact .inr ⟨calls, by simp only [step, diverged]; rfl⟩
  | request n => exact .inl ⟨_, rfl⟩
  | plan =>
    obtain ⟨t, turn, -⟩ := planned.planTurn std sorted right.limits
    exact .inl ⟨_, by simp only [step, turn, Exec.done_bind, Exec.pure_eq]; rfl⟩
  | start i =>
    obtain ⟨-, -, entry, queued, front, -⟩ := enabled
    have enabled : s.client.Enabled idx (.vdf (.startProof i)) := trivial
    obtain ⟨t, moved, -⟩ := client.step_done (abs_D_lt bits) inside squares enabled (by simp)
    obtain ⟨p, live, -⟩ := (planned.counted.queue entry).mp (front ▸ List.mem_cons_self)
    have moved : s.client.step (.inPlace turns) d.D d.L idx (.vdf (.startProof i)) = .done t := moved
    left
    simp only [step, ProofClient.start, moved, VdfProofs.startProof, front, proofAt_eq live.entry, Exec.done_bind,
      Exec.pure_eq]
    exact ⟨_, rfl⟩
  | read entry pos => exact .inl ⟨_, rfl⟩
  | finish entry out =>
    have ends := right.finish std bits within reduces top enabled (writes entry out rfl)
    generalize s.step _ std d.D d.L idx (.finish entry out) = result at ends ⊢
    cases result with
    | done t => exact .inl ⟨t, rfl⟩
    | diverged => exact .inr ⟨trivial, rfl⟩
    | thrown => exact ends.elim
    | fault => exact ends.elim
  | send data =>
    obtain ⟨t, run, -⟩ := right.send std idx bits within top data
    exact .inl ⟨t, run⟩

/-- The thread of the first request ends. -/
theorem proofs_safe_first : ∃ enough, ∀ turns ≥ enough,
    ∃ (x : ReducedForm ⟨23, by norm_num, rfl⟩) (s t : ProofClient) (bytes : SegmentBytes), x.form = ⟨2, 1, 3⟩ ∧
      Reachable (constantHash turns) insertionStd x 1 s ∧
      s.step (constantHash turns) insertionStd (-23) (Discriminant.L ⟨23, by norm_num, rfl⟩) 1 (.finish 0 bytes) =
        .done t := by
  obtain ⟨enough, runs⟩ := exists_running
  refine ⟨enough, fun turns le => ?_⟩
  obtain ⟨two, x, s, first, reachable, proofs, -, -, read, enabled⟩ := runs turns le
  let bytes : SegmentBytes := ⟨Vector.replicate _ 0, Vector.replicate _ 0, Vector.replicate _ 0⟩
  obtain ⟨t, done⟩ := finish_first two reachable read proofs (enabled bytes)
  have ends := proofs_safe (by decide) (by decide) (constantHash_top turns) reachable (enabled bytes) (by simp) (by
    intro entry out same
    obtain ⟨rfl, -⟩ := Event.finish.inj same
    exact writes_first two read proofs)
  rcases ends with ⟨u, run⟩ | ⟨-, diverged⟩
  · exact ⟨x, s, u, bytes, first, reachable, run⟩
  · cases done.symm.trans diverged

end Answered

end ProofClient

end ChiaVdf
