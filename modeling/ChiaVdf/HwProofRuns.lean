import ChiaVdf.HwProofTurns

/-! Runs of the planner: requests arrive, the planning loop takes turns, proof threads start and end, and done
proofs are retrieved. -/
namespace ChiaVdf

open PrevChain

namespace VdfProofs

section Flags

variable {vdf t : VdfProofs} {proofs : List VdfProof} {queued queued' heads requested : List ℕ} {i idx : ℕ}
  {p p' q : VdfProof} {std : StdSort}

/-- An entry that got a flag: it may have been started, and is otherwise as before. -/
structure Flagged (p p' : VdfProof) : Prop where
  iters : p'.iters = p.iters
  segIters : p'.segIters = p.segIters
  prev : p'.prev = p.prev
  refCnt : p'.refCnt = p.refCnt
  flags : p'.flags < 8
  request : p'.has HW_VDF_PROOF_FLAG_IS_REQ = p.has HW_VDF_PROOF_FLAG_IS_REQ
  started : p.has HW_VDF_PROOF_FLAG_STARTED = true → p'.has HW_VDF_PROOF_FLAG_STARTED = true

theorem liveAt_set (live : LiveAt proofs idx p) (flags : p'.flags < 8) :
    LiveAt (proofs.set idx p') i q ↔ i = idx ∧ q = p' ∨ i ≠ idx ∧ LiveAt proofs i q := by
  by_cases same : i = idx
  · subst same
    constructor
    · rintro ⟨entry, -⟩
      rw [List.getElem?_set_self live.lt] at entry
      exact .inl ⟨rfl, (Option.some.inj entry).symm⟩
    · rintro (⟨-, rfl⟩ | ⟨other, -⟩)
      · exact ⟨List.getElem?_set_self live.lt, by omega⟩
      · exact absurd rfl other
  · have entry : (proofs.set idx p')[i]? = proofs[i]? := List.getElem?_set_ne (Ne.symm same)
    constructor
    · rintro ⟨at_i, alive⟩
      exact .inr ⟨same, entry ▸ at_i, alive⟩
    · rintro (⟨here, -⟩ | ⟨-, at_i, alive⟩)
      · exact absurd here same
      · exact ⟨entry.trans at_i, alive⟩

theorem Flagged.refl (flags : p.flags < 8) : Flagged p p := ⟨rfl, rfl, rfl, rfl, flags, rfl, id⟩

theorem WellFormed.of_set (table : WellFormed proofs) (live : LiveAt proofs idx p) (flagged : Flagged p p')
    (at_i : LiveAt (proofs.set idx p') i q) : ∃ r, LiveAt proofs i r ∧ Flagged r q ∧ (i ≠ idx → q = r) ∧
      (i = idx → q = p') := by
  rcases (liveAt_set live flagged.flags).mp at_i with ⟨rfl, rfl⟩ | ⟨other, old⟩
  · exact ⟨p, live, flagged, absurd rfl, fun _ => rfl⟩
  · exact ⟨q, old, .refl (table.flags old), fun _ => rfl, fun same => absurd same other⟩

theorem WellFormed.to_set (table : WellFormed proofs) (live : LiveAt proofs idx p) (flagged : Flagged p p')
    (at_i : LiveAt proofs i q) : ∃ r, LiveAt (proofs.set idx p') i r ∧ Flagged q r := by
  by_cases same : i = idx
  · subst same
    obtain rfl := live.unique at_i
    exact ⟨p', (liveAt_set live flagged.flags).mpr (.inl ⟨rfl, rfl⟩), flagged⟩
  · exact ⟨q, (liveAt_set live flagged.flags).mpr (.inr ⟨same, at_i⟩), .refl (table.flags at_i)⟩

theorem WellFormed.flag (table : WellFormed proofs) (live : LiveAt proofs idx p) (flagged : Flagged p p')
    (before : ∀ j q, prevOf proofs idx = some j → LiveAt proofs j q → q.has HW_VDF_PROOF_FLAG_STARTED = true) :
    WellFormed (proofs.set idx p') := by
  have links : prevOf (proofs.set idx p') = prevOf proofs := prevOf_set live.entry flagged.prev
  exact {
    size := by rw [List.length_set]; exact table.size
    erased := by
      intro i q entry dead
      by_cases same : idx = i
      · subst same
        rw [List.getElem?_set_self live.lt] at entry
        obtain rfl := Option.some.inj entry
        have flags := flagged.flags
        omega
      · rw [List.getElem?_set_ne same] at entry
        exact table.erased entry dead
    descending := by rw [links]; exact table.descending
    flags := by
      intro i q at_i
      obtain ⟨r, -, flagged', -⟩ := table.of_set live flagged at_i
      exact flagged'.flags
    root := by
      intro i q at_i root
      obtain ⟨r, at_i', flagged', -⟩ := table.of_set live flagged at_i
      rw [flagged'.iters, flagged'.segIters]
      exact table.root at_i' (links ▸ root)
    link := by
      intro i j q at_i link
      rw [links] at link
      obtain ⟨r, at_i', flagged', other, -⟩ := table.of_set live flagged at_i
      obtain ⟨u, at_j, chkp, sum, positive, on⟩ := table.link at_i' link
      obtain ⟨v, at_j', flagged_j⟩ := table.to_set live flagged at_j
      refine ⟨v, at_j', flagged_j.request.trans chkp, ?_, flagged'.segIters.symm ▸ positive, fun started => ?_⟩
      · rw [flagged'.iters, flagged'.segIters, flagged_j.iters, sum]
      · refine flagged_j.started ?_
        by_cases same : i = idx
        · subst same
          exact before j u link at_j
        · exact on (other same ▸ started)
    chkp := by
      intro i q at_i chkp
      obtain ⟨r, at_i', flagged', -⟩ := table.of_set live flagged at_i
      rw [flagged'.iters]
      exact table.chkp at_i' (flagged'.request.symm.trans chkp)
    depth := by
      intro i q at_i
      obtain ⟨r, at_i', flagged', -⟩ := table.of_set live flagged at_i
      rw [links, flagged'.request]
      exact table.depth at_i' }

theorem Counted.flag (counted : Counted proofs queued heads []) (live : LiveAt proofs idx p)
    (flagged : Flagged p p')
    (before : ∀ j q, prevOf proofs idx = some j → LiveAt proofs j q → q.has HW_VDF_PROOF_FLAG_STARTED = true)
    (queue : ∀ i, i ∈ queued' ↔ i ∈ queued ∧ (i = idx → p'.has HW_VDF_PROOF_FLAG_STARTED = false))
    (nodup : queued'.Nodup) : Counted (proofs.set idx p') queued' heads [] := by
  have table := counted.table
  have links : prevOf (proofs.set idx p') = prevOf proofs := prevOf_set live.entry flagged.prev
  exact {
    table := table.flag live flagged before
    queue := by
      intro i
      rw [queue, counted.queue]
      constructor
      · rintro ⟨⟨q, at_i, waits⟩, here⟩
        obtain ⟨r, at_i', flagged'⟩ := table.to_set live flagged at_i
        refine ⟨r, at_i', ?_⟩
        obtain ⟨u, at_i'', -, other, same⟩ := table.of_set live flagged at_i'
        by_cases eq : i = idx
        · rw [same eq]
          exact here eq
        · rw [other eq, ← at_i.unique at_i'']
          exact waits
      · rintro ⟨r, at_i, waits⟩
        obtain ⟨q, at_i', flagged', -, same⟩ := table.of_set live flagged at_i
        refine ⟨⟨q, at_i', ?_⟩, fun eq => same eq ▸ waits⟩
        by_contra started
        rw [flagged'.started (by simpa using started)] at waits
        exact absurd waits (by decide)
    nodup := nodup
    alive := by
      intro h head
      obtain ⟨q, at_h⟩ := counted.alive h head
      obtain ⟨r, at_h', -⟩ := table.to_set live flagged at_h
      exact ⟨r, at_h'⟩
    counts := by
      intro i r member entry
      have queued_i := ((queue i).mp member).1
      rw [links]
      by_cases same : idx = i
      · subst same
        rw [List.getElem?_set_self live.lt] at entry
        obtain rfl := Option.some.inj entry
        exact flagged.refCnt.trans (counted.counts queued_i live.entry)
      · rw [List.getElem?_set_ne same] at entry
        exact counted.counts queued_i entry
    unused := by
      intro i member
      rw [links]
      exact counted.unused i ((queue i).mp member).1
    deletes := by simp
    once := List.nodup_nil }

theorem itersOf_set (live : LiveAt proofs idx p) (flagged : Flagged p p') :
    itersOf (proofs.set idx p') = itersOf proofs := by
  funext i
  by_cases same : idx = i
  · subst same
    rw [itersOf_eq (List.getElem?_set_self live.lt), itersOf_eq live.entry, flagged.iters]
  · rw [itersOf, itersOf, List.getElem?_set_ne same]

theorem isReq_set (table : WellFormed proofs) (live : LiveAt proofs idx p) (flagged : Flagged p p') :
    IsReq (proofs.set idx p') i ↔ IsReq proofs i := by
  constructor
  · rintro ⟨q, at_i, request⟩
    obtain ⟨r, at_i', flagged', -⟩ := table.of_set live flagged at_i
    exact ⟨r, at_i', flagged'.request.symm.trans request⟩
  · rintro ⟨q, at_i, request⟩
    obtain ⟨r, at_i', flagged'⟩ := table.to_set live flagged at_i
    exact ⟨r, at_i', flagged'.request.trans request⟩

theorem has_or_flag {f : ℕ} (small : f < 8) :
    (f ||| HW_VDF_PROOF_FLAG_STARTED < 8 ∧ (f ||| HW_VDF_PROOF_FLAG_STARTED) &&& HW_VDF_PROOF_FLAG_IS_REQ =
        f &&& HW_VDF_PROOF_FLAG_IS_REQ ∧ (f ||| HW_VDF_PROOF_FLAG_STARTED) &&& HW_VDF_PROOF_FLAG_STARTED ≠ 0) ∧
      f ||| HW_VDF_PROOF_FLAG_DONE < 8 ∧ (f ||| HW_VDF_PROOF_FLAG_DONE) &&& HW_VDF_PROOF_FLAG_IS_REQ =
        f &&& HW_VDF_PROOF_FLAG_IS_REQ ∧ (f ||| HW_VDF_PROOF_FLAG_DONE) &&& HW_VDF_PROOF_FLAG_STARTED =
          f &&& HW_VDF_PROOF_FLAG_STARTED := by
  have all : ∀ f < 8, (f ||| 4 < 8 ∧ (f ||| 4) &&& 2 = f &&& 2 ∧ (f ||| 4) &&& 4 ≠ 0) ∧
      f ||| 1 < 8 ∧ (f ||| 1) &&& 2 = f &&& 2 ∧ (f ||| 1) &&& 4 = f &&& 4 := by decide
  exact all f small

theorem flagged_started (small : p.flags < 8) :
    Flagged p { p with flags := p.flags ||| HW_VDF_PROOF_FLAG_STARTED } := by
  obtain ⟨⟨flags, request, started⟩, -⟩ := has_or_flag small
  exact {
    iters := rfl, segIters := rfl, prev := rfl, refCnt := rfl
    flags := flags
    request := by rw [VdfProof.has, VdfProof.has, request]
    started := fun _ => by rw [VdfProof.has]; exact decide_eq_true started }

theorem flagged_done (small : p.flags < 8) :
    Flagged p { p with flags := p.flags ||| HW_VDF_PROOF_FLAG_DONE } := by
  obtain ⟨-, flags, request, started⟩ := has_or_flag small
  exact {
    iters := rfl, segIters := rfl, prev := rfl, refCnt := rfl
    flags := flags
    request := by rw [VdfProof.has, VdfProof.has, request]
    started := fun on => by rwa [VdfProof.has, started] }

/-- A flag of an entry is not what the requests and their places are read from. -/
theorem Planned.flag (planned : Planned vdf heads requested) (live : LiveAt vdf.proofs idx p)
    (flagged : Flagged p p') (proofs : t.proofs = vdf.proofs.set idx p') (reqProofs : t.reqProofs = vdf.reqProofs)
    (counted : Counted t.proofs t.queuedProofs heads []) : Planned t heads requested where
  counted := counted
  once := planned.once
  requests i := by
    rw [proofs]
    exact (planned.requests i).trans (isReq_set planned.counted.table live flagged).symm
  places := by
    rw [proofs, reqProofs, itersOf_set live flagged]
    exact planned.places
  ordered := by
    rw [reqProofs]
    exact planned.ordered

/-- The front of a sorted queue goes on from a started entry, if from any. -/
theorem Planned.startProof (planned : Planned vdf heads requested) (sorted : QueueSorted vdf)
    (run : vdf.startProof = .done t) : Planned t heads requested ∧ QueueSorted t := by
  have counted := planned.counted
  have table := counted.table
  unfold VdfProofs.startProof at run
  cases front : vdf.queuedProofs with
  | nil =>
    rw [front] at run
    obtain rfl := Exec.done.inj run
    exact ⟨planned, sorted⟩
  | cons idx queued =>
    obtain ⟨p, live, waits⟩ := (counted.queue idx).mp (front ▸ List.mem_cons_self ..)
    rw [front] at run
    dsimp only at run
    rw [proofAt_eq live.entry] at run
    obtain rfl := Exec.done.inj run
    have flagged := flagged_started (table.flags live)
    obtain ⟨⟨-, -, on⟩, -⟩ := has_or_flag (table.flags live)
    have nodup := counted.nodup
    have sorted' := sorted
    rw [QueueSorted, front] at sorted'
    rw [front] at nodup
    obtain ⟨fresh, nodup'⟩ := List.nodup_cons.mp nodup
    obtain ⟨least, rest⟩ := List.pairwise_cons.mp sorted'
    have same := itersOf_set live flagged
    constructor
    · refine planned.flag live flagged rfl rfl (counted.flag live flagged ?_ ?_ nodup')
      · intro j q link at_j
        by_contra idle
        have below := table.iters_lt_of_mem live (mem_chain_of_link table.descending mem_chain_self link)
          (table.descending idx j link).ne at_j
        have member := (counted.queue j).mpr ⟨q, at_j, by simpa using idle⟩
        rw [front, List.mem_cons] at member
        rcases member with here | later
        · exact (table.descending idx j link).ne here
        · have le := least j later
          rw [itersOf_eq live.entry, itersOf_eq at_j.entry] at le
          omega
      · intro i
        rw [front, List.mem_cons]
        constructor
        · intro member
          exact ⟨.inr member, fun eq => absurd (eq ▸ member) fresh⟩
        · rintro ⟨rfl | member, off⟩
          · exact absurd (off rfl) (by rw [VdfProof.has]; simpa using on)
          · exact member
    · show queued.Pairwise fun i j => itersOf (vdf.proofs.set idx _) i ≤ itersOf (vdf.proofs.set idx _) j
      rw [same]
      exact rest

theorem Planned.finishProof (planned : Planned vdf heads requested) (sorted : QueueSorted vdf)
    (live : LiveAt vdf.proofs idx p) (started : p.has HW_VDF_PROOF_FLAG_STARTED = true)
    (run : vdf.finishProof idx = .done t) : Planned t heads requested ∧ QueueSorted t := by
  have counted := planned.counted
  have table := counted.table
  rw [VdfProofs.finishProof, proofAt_eq live.entry] at run
  obtain rfl := Exec.done.inj run
  have flagged := flagged_done (table.flags live)
  have same := itersOf_set live flagged
  constructor
  · refine planned.flag live flagged rfl rfl (counted.flag live flagged ?_ ?_ counted.nodup)
    · intro j q link at_j
      obtain ⟨r, at_j', -, -, -, on⟩ := table.link live link
      exact at_j.unique at_j' ▸ on started
    · intro i
      refine ⟨fun member => ⟨member, fun eq => ?_⟩, And.left⟩
      obtain ⟨q, at_i, waits⟩ := (counted.queue i).mp member
      subst eq
      obtain rfl := live.unique at_i
      rw [started] at waits
      exact absurd waits (by decide)
  · show vdf.queuedProofs.Pairwise fun i j => itersOf (vdf.proofs.set idx _) i ≤ itersOf (vdf.proofs.set idx _) j
    rw [same]
    exact sorted

theorem Planned.requestProof (planned : Planned vdf heads requested) (n : ℕ) (isChkp : Bool) :
    Planned (vdf.requestProof std n isChkp) heads (n :: requested) := {
  planned with
  places := ((requestProof_perm std vdf n isChkp).append_right _).trans (planned.places.cons n)
  ordered := std.sorted _ _ }

end Flags

section Runs

variable {vdf s t : VdfProofs} {heads requested : List ℕ} {i j n : ℕ} {p : VdfProof} {std : StdSort}

inductive Event where
  | request (iters : ℕ)
  | turn
  | start
  | finish (idx : ℕ)
  | retrieve
  deriving DecidableEq

def step (std : StdSort) (vdf : VdfProofs) : Event → Exec VdfProofs
  | .request iters => .done (vdf.requestProof std iters false)
  | .turn => vdf.planTurn std
  | .start => vdf.startProof
  | .finish idx => vdf.finishProof idx
  | .retrieve => do
    let (_, vdf) ← vdf.retrieveProof
    return vdf

/-- Only a thread that was started comes to its end. -/
def Enabled (vdf : VdfProofs) : Event → Prop
  | .finish idx => ∃ p, LiveAt vdf.proofs idx p ∧ p.has HW_VDF_PROOF_FLAG_STARTED = true
  | _ => True

def Event.requests : Event → List ℕ
  | .request iters => [iters]
  | _ => []

/-- `vdf` is reached when the proofs in `requested` were asked for and every step met `cond`. -/
inductive Run (std : StdSort) (cond : Event → VdfProofs → Prop) : List ℕ → VdfProofs → Prop where
  | init : Run std cond [] ⟨[], [], [], []⟩
  | step {requested : List ℕ} {s t : VdfProofs} (event : Event) : Run std cond requested s → Enabled s event →
      s.step std event = .done t → cond event t → Run std cond (event.requests ++ requested) t

/-- No product of a request overflows, and the table stays below the index that stands for none. -/
def Fits (event : Event) (t : VdfProofs) : Prop :=
  (∀ n ∈ event.requests, n * 92 < 2 ^ 64) ∧ t.proofs.length ≤ HW_VDF_PROOF_NONE

instance (event : Event) (t : VdfProofs) : Decidable (Fits event t) := inferInstanceAs (Decidable (_ ∧ _))

/-- Following `prev` from `i` goes through the live entries `l` and then reaches `HW_VDF_PROOF_NONE`. -/
inductive Path (proofs : List VdfProof) : ℕ → List ℕ → Prop where
  | last {i : ℕ} {p : VdfProof} : LiveAt proofs i p → p.prev = HW_VDF_PROOF_NONE → Path proofs i [i]
  | link {i : ℕ} {p : VdfProof} {l : List ℕ} : LiveAt proofs i p → p.prev ≠ HW_VDF_PROOF_NONE →
      Path proofs p.prev l → Path proofs i (i :: l)

def segItersOf (proofs : List VdfProof) (idx : ℕ) : ℕ :=
  match proofs[idx]? with
  | some proof => proof.segIters
  | none => 0

def isReq (proofs : List VdfProof) (i : ℕ) : Bool :=
  (proofs[i]?).any fun p => p.flags ≠ 0xff && p.has HW_VDF_PROOF_FLAG_IS_REQ

/-- The live entries of requests. -/
def liveReqs (proofs : List VdfProof) : List ℕ := (List.range proofs.length).filter (isReq proofs)

/-- The chain `l` from an entry `i`. -/
structure SoundChain (proofs : List VdfProof) (i : ℕ) (p : VdfProof) (l : List ℕ) : Prop where
  path : Path proofs i l
  sum : (l.map (segItersOf proofs)).sum = p.iters
  boundaries : ∀ j ∈ l, j ≠ i → HW_VDF_VALUE_INTERVAL ∣ itersOf proofs j
  segments : p.has HW_VDF_PROOF_FLAG_IS_REQ = true → l.length ≤ 64

/-- Chains are sound, and no request is lost. -/
structure Sound (std : StdSort) (requested : List ℕ) (vdf : VdfProofs) : Prop where
  place : (vdf.reqProofs.map VdfProofReq.iters ++ (liveReqs vdf.proofs).map (itersOf vdf.proofs)).Perm requested
  chains : ∀ i p, LiveAt vdf.proofs i p → SoundChain vdf.proofs i p (chain (prevOf vdf.proofs) i)
  counts : ∀ i p, LiveAt vdf.proofs i p → p.has HW_VDF_PROOF_FLAG_STARTED = false →
    p.refCnt = (liveReqs vdf.proofs).countP fun h => i ∈ chain (prevOf vdf.proofs) h
  queue : QueueSorted vdf
  loop : (∀ n t, planTurns std n vdf = .done t → t.proofs.length ≤ HW_VDF_PROOF_NONE) →
    ∃ fuel t, VdfProofs.planLoop std fuel vdf = .done t

theorem mem_liveReqs {proofs : List VdfProof} : i ∈ liveReqs proofs ↔ IsReq proofs i := by
  rw [liveReqs, List.mem_filter, List.mem_range, isReq]
  constructor
  · rintro ⟨inside, request⟩
    rw [List.getElem?_eq_getElem inside, Option.any_some, Bool.and_eq_true, decide_eq_true_eq] at request
    exact ⟨_, ⟨List.getElem?_eq_getElem inside, request.1⟩, request.2⟩
  · rintro ⟨p, live, request⟩
    refine ⟨live.lt, ?_⟩
    rw [live.entry, Option.any_some, request, Bool.and_true]
    exact decide_eq_true live.live

theorem WellFormed.path {proofs : List VdfProof} (table : WellFormed proofs) (live : LiveAt proofs i p) :
    Path proofs i (chain (prevOf proofs) i) := by
  induction i using link_induction table.descending generalizing p with
  | root i root =>
    rw [chain_root root]
    exact .last live ((prevOf_eq_none live.entry).mp root)
  | step i j link ih =>
    obtain ⟨q, at_j, -⟩ := table.link live link
    obtain ⟨rfl, more⟩ := (prevOf_eq_some live.entry).mp link
    rw [chain_step table.descending link]
    exact .link live more (ih at_j)

theorem WellFormed.sum_segIters {proofs : List VdfProof} (table : WellFormed proofs) (live : LiveAt proofs i p) :
    ((chain (prevOf proofs) i).map (segItersOf proofs)).sum = p.iters := by
  induction i using link_induction table.descending generalizing p with
  | root i root =>
    rw [chain_root root, List.map_singleton, List.sum_singleton, segItersOf, live.entry]
    exact (table.root live root).symm
  | step i j link ih =>
    obtain ⟨q, at_j, -, sum, -⟩ := table.link live link
    rw [chain_step table.descending link, List.map_cons, List.sum_cons, ih at_j, segItersOf, live.entry, sum,
      Nat.add_comm]

theorem WellFormed.soundChain {proofs : List VdfProof} (table : WellFormed proofs) (live : LiveAt proofs i p) :
    SoundChain proofs i p (chain (prevOf proofs) i) where
  path := table.path live
  sum := table.sum_segIters live
  boundaries := by
    intro j member ne
    obtain ⟨q, at_j⟩ := table.live_of_mem live member
    rw [itersOf_eq at_j.entry]
    exact table.chkp at_j (table.chkp_of_mem live member ne at_j)
  segments := by
    intro request
    have depth := table.depth live
    rwa [if_pos request] at depth

theorem Planned.sound (planned : Planned vdf heads requested) (sorted : QueueSorted vdf)
    (small : ∀ n ∈ requested, n * 92 < 2 ^ 64) : Sound std requested vdf := by
  have counted := planned.counted
  have same : (liveReqs vdf.proofs).Perm heads :=
    (List.perm_ext_iff_of_nodup (List.nodup_range.filter _) planned.once).mpr fun i =>
      mem_liveReqs.trans (planned.requests i).symm
  exact {
    place := ((same.map _).append_left _).trans planned.places
    chains := fun i p live => counted.table.soundChain live
    counts := by
      intro i p live waits
      rw [counted.counts ((counted.queue i).mpr ⟨p, live, waits⟩) live.entry]
      exact same.symm.countP_eq _
    queue := sorted
    loop := planned.planLoop sorted small }

/-- Every step of a run keeps the chains, the counts and the requests. -/
theorem Planned.step {event : Event} (planned : Planned s heads requested) (sorted : QueueSorted s)
    (small : ∀ n ∈ requested, n * 92 < 2 ^ 64) (enabled : Enabled s event) (run : s.step std event = .done t)
    (fits : Fits event t) : ∃ heads', Planned t heads' (event.requests ++ requested) ∧ QueueSorted t := by
  cases event with
  | request n =>
    obtain rfl := Exec.done.inj run
    exact ⟨heads, planned.requestProof n false, sorted⟩
  | turn =>
    obtain ⟨u, turn, ends⟩ := planned.planTurn std sorted small
    obtain rfl := Exec.done.inj (turn.symm.trans run)
    exact (ends fits.2).1
  | start => exact ⟨heads, planned.startProof sorted run⟩
  | finish idx =>
    obtain ⟨p, live, started⟩ := enabled
    exact ⟨heads, planned.finishProof sorted live started run⟩
  | retrieve =>
    obtain ⟨⟨found, u⟩, retrieve, last⟩ := Exec.bind_eq_done.mp run
    obtain ⟨⟨found', left⟩, -, rest⟩ := Exec.bind_eq_done.mp retrieve
    obtain ⟨-, rfl⟩ := Prod.mk.inj (Exec.done.inj rest)
    obtain rfl := Exec.done.inj last
    exact ⟨heads, { planned with }, sorted⟩

theorem Run.planned (run : Run std Fits requested s) :
    (∃ heads, Planned s heads requested ∧ QueueSorted s) ∧ ∀ n ∈ requested, n * 92 < 2 ^ 64 := by
  induction run with
  | init =>
    refine ⟨⟨[], ?_, List.Pairwise.nil⟩, by simp⟩
    have empty {i : ℕ} {p : VdfProof} : ¬LiveAt [] i p := fun live => by simpa using live.entry
    exact {
      counted := {
        table := {
          size := by simp
          erased := fun entry => by simp at entry
          descending := fun i j link => by simp [prevOf] at link
          flags := fun live => (empty live).elim
          root := fun live => (empty live).elim
          link := fun live => (empty live).elim
          chkp := fun live => (empty live).elim
          depth := fun live => (empty live).elim }
        queue := fun i => by simp [empty]
        nodup := List.nodup_nil
        alive := by simp
        counts := by simp
        unused := by simp
        deletes := by simp
        once := List.nodup_nil }
      once := List.nodup_nil
      requests := fun i => by simp [IsReq, empty]
      places := .refl _
      ordered := List.Pairwise.nil }
  | step event run enabled step fits ih =>
    obtain ⟨⟨heads, planned, sorted⟩, small⟩ := ih
    refine ⟨planned.step sorted small enabled step fits, fun n member => ?_⟩
    rcases List.mem_append.mp member with new | old
    · exact fits.1 n new
    · exact small n old

/-- In every run whose steps fit, planning keeps the chains sound and loses no request. -/
theorem planning_sound (run : Run std Fits requested s) : Sound std requested s := by
  obtain ⟨⟨heads, planned, sorted⟩, small⟩ := run.planned
  exact planned.sound sorted small

def insertionStd : StdSort where
  sort key l := l.insertionSort (key · ≤ key ·)
  perm key l := l.perm_insertionSort _
  sorted key l := by
    have total : Std.Total fun a b : _ => key a ≤ key b := ⟨fun _ _ => Nat.le_total ..⟩
    have trans : IsTrans _ fun a b => key a ≤ key b := ⟨fun _ _ _ => Nat.le_trans⟩
    exact l.pairwise_insertionSort _

/-- The second of two requests tore the first down, which was planned again, and then a thread was started. -/
theorem planning_sound_torn : Sound insertionStd [500, 1200000] ⟨[],
    [⟨500, 500, 6, HW_VDF_PROOF_NONE, 1⟩, ⟨900000, 900000, 0, HW_VDF_PROOF_NONE, 1⟩, ⟨1200000, 300000, 2, 1, 1⟩],
    [1, 2], []⟩ := by
  have asked : Run insertionStd Fits [1200000] ⟨[⟨1200000, false⟩], [], [], []⟩ :=
    .step (.request 1200000) .init trivial rfl (by decide)
  have split : Run insertionStd Fits [1200000]
      ⟨[], [⟨900000, 900000, 0, HW_VDF_PROOF_NONE, 1⟩, ⟨1200000, 300000, 2, 0, 1⟩], [0, 1], []⟩ :=
    .step .turn asked trivial rfl (by decide)
  have asked' : Run insertionStd Fits [500, 1200000]
      ⟨[⟨500, false⟩], [⟨900000, 900000, 0, HW_VDF_PROOF_NONE, 1⟩, ⟨1200000, 300000, 2, 0, 1⟩], [0, 1], []⟩ :=
    .step (.request 500) split trivial rfl (by decide)
  have torn : Run insertionStd Fits [500, 1200000]
      ⟨[⟨1200000, false⟩], [⟨500, 500, 2, HW_VDF_PROOF_NONE, 1⟩], [0], []⟩ :=
    .step .turn asked' trivial rfl (by decide)
  have planned : Run insertionStd Fits [500, 1200000] ⟨[],
      [⟨500, 500, 2, HW_VDF_PROOF_NONE, 1⟩, ⟨900000, 900000, 0, HW_VDF_PROOF_NONE, 1⟩, ⟨1200000, 300000, 2, 1, 1⟩],
      [0, 1, 2], []⟩ :=
    .step .turn torn trivial rfl (by decide)
  exact planning_sound (.step .start planned trivial rfl (by decide))

/-- The products of a huge request overflow, and a checkpoint ends off the interval. -/
theorem huge_request_unsound : ∃ s, Run insertionStd (fun _ _ => True) [2 ^ 64 - 1000000] s ∧
    ¬Sound insertionStd [2 ^ 64 - 1000000] s := by
  have asked : Run insertionStd (fun _ _ => True) [2 ^ 64 - 1000000] ⟨[⟨2 ^ 64 - 1000000, false⟩], [], [], []⟩ :=
    .step (.request (2 ^ 64 - 1000000)) .init trivial rfl trivial
  have planned : Run insertionStd (fun _ _ => True) [2 ^ 64 - 1000000] ⟨[],
      [⟨184467440736404000, 184467440736404000, 0, HW_VDF_PROOF_NONE, 1⟩,
        ⟨184467440736172384, 18446744073709320000, 0, 0, 1⟩,
        ⟨18446744073708551616, 18262276632972379232, 2, 1, 1⟩], [1, 0, 2], []⟩ :=
    .step .turn asked trivial rfl trivial
  refine ⟨_, planned, fun sound => ?_⟩
  have chain := sound.chains 2 ⟨18446744073708551616, 18262276632972379232, 2, 1, 1⟩ ⟨rfl, by decide⟩
  exact absurd (chain.boundaries 1 (by decide) (by decide)) (by decide)

end Runs

end VdfProofs

end ChiaVdf
