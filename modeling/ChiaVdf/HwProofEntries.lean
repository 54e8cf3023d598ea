import ChiaVdf.HwProofAnswers
import ChiaVdf.HwProofRuns

/-! The entries that threads work on. Planning leaves them where they are and makes no other entry look like one of
them; what is recorded about them is kept by everything that happens to the table. -/
namespace ChiaVdf

namespace VdfProofs

/-- The same segment in the same state. -/
structure Same (p q : VdfProof) : Prop where
  iters : q.iters = p.iters
  segIters : q.segIters = p.segIters
  flags : q.flags = p.flags

theorem Same.refl (p : VdfProof) : Same p p := ⟨rfl, rfl, rfl⟩

theorem Same.trans {p q r : VdfProof} (first : Same p q) (second : Same q r) : Same p r :=
  ⟨second.iters.trans first.iters, second.segIters.trans first.segIters, second.flags.trans first.flags⟩

theorem Same.has {p q : VdfProof} (same : Same p q) (flag : ℕ) : q.has flag = p.has flag := by
  simp [VdfProof.has, same.flags]

theorem Counter.same {f : VdfProof → VdfProof} (counter : Counter f) (p : VdfProof) : Same p (f p) :=
  ⟨counter.iters p, counter.segIters p, counter.flags p⟩

/-- The entry belongs to a thread, or did. -/
def Taken (p : VdfProof) : Prop := p.has HW_VDF_PROOF_FLAG_STARTED = true ∨ p.has HW_VDF_PROOF_FLAG_DONE = true

theorem Same.taken {p q : VdfProof} (same : Same p q) : Taken q ↔ Taken p := by simp [Taken, same.has]

structure Frame (proofs proofs' : List VdfProof) : Prop where
  taken : ∀ {i : ℕ} {q : VdfProof}, LiveAt proofs' i q → Taken q → ∃ p, LiveAt proofs i p ∧ Same p q
  started : ∀ {i : ℕ} {p : VdfProof}, LiveAt proofs i p → p.has HW_VDF_PROOF_FLAG_STARTED = true →
    ∃ q, LiveAt proofs' i q ∧ Same p q

theorem Frame.refl (proofs : List VdfProof) : Frame proofs proofs :=
  ⟨fun live _ => ⟨_, live, .refl _⟩, fun live _ => ⟨_, live, .refl _⟩⟩

theorem Frame.trans {proofs proofs' proofs'' : List VdfProof} (first : Frame proofs proofs')
    (second : Frame proofs' proofs'') : Frame proofs proofs'' where
  taken live taken := by
    obtain ⟨q, live, same⟩ := second.taken live taken
    obtain ⟨p, live, same'⟩ := first.taken live (same.taken.mp taken)
    exact ⟨p, live, same'.trans same⟩
  started live started := by
    obtain ⟨q, live, same⟩ := first.started live started
    obtain ⟨r, live, same'⟩ := second.started live (by rwa [same.has])
    exact ⟨r, live, same.trans same'⟩

section Lists

variable {proofs : List VdfProof} {idx i fuel : ℕ} {p q : VdfProof} {toDel : List ℕ}

theorem Frame.set (entry : proofs[idx]? = some p) (same : Same p q) : Frame proofs (proofs.set idx q) := by
  obtain ⟨inside, -⟩ := List.getElem?_eq_some_iff.mp entry
  constructor
  · intro i r live done
    by_cases here : idx = i
    · subst here
      obtain rfl : q = r := by simpa [inside] using live.entry
      exact ⟨p, ⟨entry, same.flags ▸ live.live⟩, same⟩
    · exact ⟨r, ⟨by simpa [here] using live.entry, live.live⟩, .refl r⟩
  · intro i r live started
    by_cases here : idx = i
    · subst here
      obtain rfl := Option.some.inj (entry.symm.trans live.entry)
      exact ⟨q, ⟨by simp [inside], same.flags.symm ▸ live.live⟩, same⟩
    · exact ⟨r, ⟨by simpa [here] using live.entry, live.live⟩, .refl r⟩

theorem Frame.append (fresh : ¬Taken q) : Frame proofs (proofs ++ [q]) := by
  constructor
  · intro i r live taken
    by_cases inside : i < proofs.length
    · exact ⟨r, (liveAt_append_of_lt inside).mp live, .refl r⟩
    · have entry := live.entry
      rw [List.getElem?_append_right (by omega)] at entry
      obtain rfl := List.mem_singleton.mp (List.mem_of_getElem? entry)
      exact absurd taken fresh
  · intro i r live _
    exact ⟨r, (liveAt_append_of_lt live.lt).mpr live, .refl r⟩

theorem entry_of_proofAt (read : proofAt proofs idx = .done p) : proofs[idx]? = some p := by
  unfold proofAt at read
  split at read
  · next q entry => rw [entry, Exec.done.inj read]
  · cases read

theorem incRef_frame {proofs' : List VdfProof} (run : incRef fuel proofs idx = .done proofs') :
    Frame proofs proofs' := by
  induction fuel generalizing proofs idx with
  | zero => cases run
  | succ fuel ih =>
    obtain ⟨p, read, run⟩ := Exec.bind_eq_done.mp run
    have touched : Frame proofs (proofs.set idx p.incRefCnt) := .set (entry_of_proofAt read) (incRefCnt_counter.same p)
    split_ifs at run
    · obtain rfl := Exec.done.inj run
      exact touched
    · exact touched.trans (ih run)

/-- The entries at the indexes are not started. -/
def Waiting (proofs : List VdfProof) (idxs : List ℕ) : Prop :=
  ∀ idx ∈ idxs, ∀ p, proofs[idx]? = some p → p.has HW_VDF_PROOF_FLAG_STARTED = false

theorem Waiting.set (waiting : Waiting proofs toDel) (entry : proofs[idx]? = some p) (same : Same p q) :
    Waiting (proofs.set idx q) toDel := by
  intro i member r at_i
  by_cases here : idx = i
  · subst here
    obtain ⟨inside, -⟩ := List.getElem?_eq_some_iff.mp entry
    obtain rfl : q = r := by simpa [inside] using at_i
    rw [same.has]
    exact waiting idx member p entry
  · exact waiting i member r (by simpa [here] using at_i)

theorem decRefWalk_frame {proofs' : List VdfProof} {toDel' : List ℕ} (waiting : Waiting proofs toDel)
    (run : decRefWalk fuel proofs toDel idx = .done (proofs', toDel')) :
    Frame proofs proofs' ∧ proofs'.length = proofs.length ∧ Waiting proofs' toDel' := by
  induction fuel generalizing proofs toDel idx with
  | zero => cases run
  | succ fuel ih =>
    obtain ⟨p, read, run⟩ := Exec.bind_eq_done.mp run
    have entry := entry_of_proofAt read
    obtain ⟨inside, -⟩ := List.getElem?_eq_some_iff.mp entry
    by_cases started : p.has HW_VDF_PROOF_FLAG_STARTED = true
    · rw [if_pos started] at run
      obtain ⟨rfl, rfl⟩ := Prod.mk.inj (Exec.done.inj run)
      exact ⟨.refl _, rfl, waiting⟩
    · rw [if_neg started] at run
      have counted : Same p p.decRefCnt := decRefCnt_counter.same p
      have touched : Frame proofs (proofs.set idx p.decRefCnt) := .set entry counted
      have waiting' : Waiting (proofs.set idx p.decRefCnt) (toDel ++ [idx]) := by
        intro i member r at_i
        rcases List.mem_append.mp member with old | new
        · exact waiting.set entry counted i old r at_i
        · obtain rfl := List.mem_singleton.mp new
          obtain rfl : p.decRefCnt = r := by simpa [inside] using at_i
          simpa [counted.has] using started
      dsimp only at run
      generalize p.decRefCnt.refCnt = refCnt at run
      have waiting' : Waiting (proofs.set idx p.decRefCnt) (if refCnt = 0 then toDel ++ [idx] else toDel) := by
        split_ifs
        · exact waiting'
        · exact waiting.set entry counted
      generalize (if refCnt = 0 then toDel ++ [idx] else toDel) = toDel at run waiting'
      by_cases last : p.prev = HW_VDF_PROOF_NONE
      · rw [if_pos last] at run
        obtain ⟨rfl, rfl⟩ := Prod.mk.inj (Exec.done.inj run)
        exact ⟨touched, by simp, waiting'⟩
      · rw [if_neg last] at run
        obtain ⟨frame, length, waiting''⟩ := ih waiting' run
        exact ⟨touched.trans frame, by simpa using length, waiting''⟩

theorem decRefWalks_frame {proofs' : List VdfProof} {toDel' : List ℕ} (idxs : List ℕ) (waiting : Waiting proofs toDel)
    (run : decRefWalks idxs proofs toDel = .done (proofs', toDel')) :
    Frame proofs proofs' ∧ proofs'.length = proofs.length ∧ Waiting proofs' toDel' := by
  induction idxs generalizing proofs toDel with
  | nil =>
    obtain ⟨rfl, rfl⟩ := Prod.mk.inj (Exec.done.inj run)
    exact ⟨.refl _, rfl, waiting⟩
  | cons idx idxs ih =>
    obtain ⟨⟨mid, toDelMid⟩, walk, run⟩ := Exec.bind_eq_done.mp run
    obtain ⟨frame, length, waiting'⟩ := decRefWalk_frame waiting walk
    obtain ⟨frame', length', waiting''⟩ := ih waiting' run
    exact ⟨frame.trans frame', length'.trans length, waiting''⟩

theorem deleteProofs_entry (idxs queued : List ℕ) (size i : ℕ) : (deleteProofs idxs proofs queued size).1[i]? =
    if i ∈ idxs then (proofs[i]?).map fun _ => .erased else proofs[i]? := by
  induction idxs generalizing proofs queued size with
  | nil => simp [deleteProofs]
  | cons idx idxs ih =>
    rw [deleteProofs, ih]
    by_cases here : idx = i
    · subst here
      by_cases inside : idx < proofs.length
      · simp [inside]
      · simp [inside]
    · simp [here, Ne.symm here]

theorem lt_deleteProofs (idxs : List ℕ) (proofs : List VdfProof) (queued : List ℕ) {size : ℕ} (stays : i ∉ idxs)
    (inside : i < size) : i < (deleteProofs idxs proofs queued size).2.2 := by
  induction idxs generalizing proofs queued size with
  | nil => exact inside
  | cons idx idxs ih =>
    rw [List.mem_cons, not_or] at stays
    rw [deleteProofs]
    apply ih _ _ stays.2
    split_ifs with last
    · omega
    · exact inside

theorem deleteProofs_frame {idxs : List ℕ} (waiting : Waiting proofs idxs) (queued : List ℕ) :
    Frame proofs ((deleteProofs idxs proofs queued proofs.length).1.take
      (deleteProofs idxs proofs queued proofs.length).2.2) := by
  constructor
  · intro i r live done
    have entry := live.entry
    rw [List.getElem?_take, deleteProofs_entry] at entry
    split_ifs at entry
    · obtain ⟨p, -, rfl⟩ := Option.map_eq_some_iff.mp entry
      exact absurd rfl live.live
    · exact ⟨r, ⟨entry, live.live⟩, .refl r⟩
  · intro i r live started
    have stays : i ∉ idxs := fun member => by simpa [started] using waiting i member r live.entry
    refine ⟨r, ⟨?_, live.live⟩, .refl r⟩
    rw [List.getElem?_take, if_pos (lt_deleteProofs idxs proofs queued stays live.lt), deleteProofs_entry,
      if_neg stays, live.entry]

end Lists

section Planning

/-- What planning does for the threads that compute proofs. -/
structure Replanned (vdf t : VdfProofs) : Prop where
  frame : Frame vdf.proofs t.proofs
  doneProofs : t.doneProofs = vdf.doneProofs

theorem Replanned.refl (vdf : VdfProofs) : Replanned vdf vdf := ⟨.refl _, rfl⟩

theorem Replanned.trans {vdf t u : VdfProofs} (first : Replanned vdf t) (second : Replanned t u) : Replanned vdf u :=
  ⟨first.frame.trans second.frame, second.doneProofs.trans first.doneProofs⟩

variable {vdf t : VdfProofs} {std : StdSort} {n i seg prev pos flags : ℕ} {idxs : List ℕ}

theorem decRef_replanned (run : vdf.decRef std idxs = .done t) : Replanned vdf t := by
  obtain ⟨⟨proofs, toDel⟩, walks, run⟩ := Exec.bind_eq_done.mp run
  obtain rfl := Exec.done.inj run
  have none : Waiting vdf.proofs [] := fun idx member => absurd member List.not_mem_nil
  obtain ⟨frame, length, waiting⟩ := decRefWalks_frame idxs none walks
  have waiting : Waiting proofs (std.sort id toDel).reverse := fun idx member =>
    waiting idx ((std.perm _ _).mem_iff.mp (List.mem_reverse.mp member))
  exact ⟨frame.trans (deleteProofs_frame waiting vdf.queuedProofs), rfl⟩

theorem requeue_proofs {toDel : List ℕ} (run : requeue std n idxs vdf = .done (t, toDel)) :
    t.proofs = vdf.proofs ∧ t.doneProofs = vdf.doneProofs := by
  induction idxs generalizing vdf toDel with
  | nil =>
    obtain ⟨rfl, rfl⟩ := Prod.mk.inj (Exec.done.inj run)
    exact ⟨rfl, rfl⟩
  | cons idx idxs ih =>
    obtain ⟨p, read, run⟩ := Exec.bind_eq_done.mp run
    split_ifs at run
    · exact ih run
    · obtain ⟨⟨mid, rest⟩, again, run⟩ := Exec.bind_eq_done.mp run
      obtain ⟨rfl, rfl⟩ := Prod.mk.inj (Exec.done.inj run)
      have same := ih again
      exact same

theorem tearDown_replanned (run : vdf.tearDown std n = .done t) : Replanned vdf t := by
  obtain ⟨⟨mid, toDel⟩, again, run⟩ := Exec.bind_eq_done.mp run
  obtain ⟨proofs, doneProofs⟩ := requeue_proofs again
  obtain ⟨frame, same⟩ := decRef_replanned run
  exact ⟨proofs ▸ frame, same.trans doneProofs⟩

theorem queueProof_replanned (fresh : flags &&& HW_VDF_PROOF_FLAG_STARTED = 0 ∧ flags &&& HW_VDF_PROOF_FLAG_DONE = 0)
    (run : vdf.queueProof seg prev flags = .done (t, pos)) : Replanned vdf t := by
  obtain ⟨iters, read, run⟩ := Exec.bind_eq_done.mp run
  obtain ⟨rfl, rfl⟩ := Prod.mk.inj (Exec.done.inj run)
  exact ⟨.append (by simp [Taken, VdfProof.has, fresh]), rfl⟩

theorem queueReq_replanned (run : vdf.queueReq n prev = .done t) : Replanned vdf t := by
  obtain ⟨⟨mid, pos⟩, queue, run⟩ := Exec.bind_eq_done.mp run
  obtain rfl := Exec.done.inj run
  exact queueProof_replanned (by decide) queue

theorem queueChkp_replanned {chkp : ℕ} (run : vdf.queueChkp chkp n prev = .done t) : Replanned vdf t := by
  obtain ⟨⟨mid, pos⟩, queue, run⟩ := Exec.bind_eq_done.mp run
  exact (queueProof_replanned (by decide) queue).trans (queueReq_replanned run)

theorem queueSegments_replanned (run : vdf.queueSegments n prev = .done t) : Replanned vdf t := by
  unfold queueSegments at run
  dsimp only at run
  split_ifs at run
  · obtain ⟨⟨mid, pos⟩, queue, run⟩ := Exec.bind_eq_done.mp run
    exact (queueProof_replanned (by decide) queue).trans (queueChkp_replanned run)
  · exact queueChkp_replanned run
  · exact queueReq_replanned run

theorem plan_replanned (run : vdf.plan std n = .done t) : Replanned vdf t := by
  obtain ⟨base, -, run⟩ := Exec.bind_eq_done.mp run
  cases base with
  | none =>
    obtain ⟨mid, queue, run⟩ := Exec.bind_eq_done.mp run
    obtain rfl := Exec.done.inj run
    obtain ⟨frame, same⟩ := queueSegments_replanned queue
    exact ⟨frame, same⟩
  | some idx =>
    obtain ⟨p, -, run⟩ := Exec.bind_eq_done.mp run
    obtain ⟨proofs, count, run⟩ := Exec.bind_eq_done.mp run
    obtain ⟨mid, queue, run⟩ := Exec.bind_eq_done.mp run
    obtain rfl := Exec.done.inj run
    obtain ⟨frame, same⟩ := queueSegments_replanned queue
    exact ⟨(incRef_frame count).trans frame, same⟩

theorem processReq_replanned (run : vdf.processReq std = .done t) : Replanned vdf t := by
  unfold processReq at run
  split at run
  · obtain rfl := Exec.done.inj run
    exact .refl vdf
  · next req reqs _ =>
    have kept (run : ({ vdf with reqProofs := reqs } : VdfProofs).plan std req.iters = .done t) : Replanned vdf t := by
      obtain ⟨frame, same⟩ := plan_replanned run
      exact ⟨frame, same⟩
    have torn (run : (({ vdf with reqProofs := reqs } : VdfProofs).tearDown std req.iters >>=
        fun mid => mid.plan std req.iters) = .done t) : Replanned vdf t := by
      obtain ⟨mid, tear, run⟩ := Exec.bind_eq_done.mp run
      obtain ⟨frame, same⟩ := tearDown_replanned tear
      have torn : Replanned vdf mid := ⟨frame, same⟩
      exact torn.trans (plan_replanned run)
    dsimp only at run
    split_ifs at run
    · exact kept run
    · obtain ⟨later, -, run⟩ := Exec.bind_eq_done.mp run
      split_ifs at run
      · exact torn run
      · exact kept run

theorem planTurn_replanned (run : vdf.planTurn std = .done t) : Replanned vdf t := by
  obtain ⟨due, -, run⟩ := Exec.bind_eq_done.mp run
  split_ifs at run
  · exact processReq_replanned run
  · obtain rfl := Exec.done.inj run
    exact .refl vdf

end Planning

section Recorded

variable {d : Discriminant} {env : VerifierEnv} {x : ReducedForm d} {limit i idx : ℕ} {proofs proofs' : List VdfProof}
  {bytes : ℕ → SegmentBytes} {doneProofs answered : List ℕ} {p q : VdfProof}

/-- What is known of the entries that are started or done: the requests among the done ones were answered or wait for
it. -/
structure Recorded (env : VerifierEnv) (x : ReducedForm d) (limit : ℕ) (proofs : List VdfProof)
    (bytes : ℕ → SegmentBytes) (doneProofs answered : List ℕ) : Prop where
  started : ∀ {i : ℕ} {p : VdfProof}, LiveAt proofs i p → p.has HW_VDF_PROOF_FLAG_STARTED = true → p.iters ≤ limit
  done : ∀ {i : ℕ} {p : VdfProof}, LiveAt proofs i p → p.has HW_VDF_PROOF_FLAG_DONE = true →
    p.has HW_VDF_PROOF_FLAG_STARTED = true ∧ ∃ segm, Proven env x p (bytes i) segm
  once : (answered ++ doneProofs).Nodup
  listed : ∀ i, i ∈ answered ++ doneProofs ↔ ∃ p, LiveAt proofs i p ∧ p.has HW_VDF_PROOF_FLAG_DONE = true ∧
    p.has HW_VDF_PROOF_FLAG_IS_REQ = true

theorem Proven.same {bytes : SegmentBytes} {segm : Segment} (same : Same p q) (proven : Proven env x p bytes segm) :
    Proven env x q bytes segm := by
  obtain ⟨honest, check, length, small, written⟩ := proven
  rw [← same.iters, ← same.segIters] at honest
  rw [← same.segIters] at length
  rw [← same.iters] at small
  rw [← same.has] at written
  exact ⟨honest, check, length, small, written⟩

theorem has_or (p : VdfProof) (f g : ℕ) : ({ p with flags := p.flags ||| f } : VdfProof).has g =
    (p.has g || decide (f &&& g ≠ 0)) := by
  simp [VdfProof.has, Nat.and_or_distrib_right]

theorem Recorded.frame (recorded : Recorded env x limit proofs bytes doneProofs answered)
    (frame : Frame proofs proofs') : Recorded env x limit proofs' bytes doneProofs answered where
  started live on := by
    obtain ⟨p, live', same⟩ := frame.taken live (.inl on)
    rw [same.iters]
    apply recorded.started live'
    rwa [← same.has]
  done live done := by
    obtain ⟨p, live', same⟩ := frame.taken live (.inr done)
    rw [same.has] at done ⊢
    obtain ⟨on, segm, proven⟩ := recorded.done live' done
    exact ⟨on, segm, proven.same same⟩
  once := recorded.once
  listed i := by
    rw [recorded.listed]
    constructor
    · rintro ⟨p, live, done, request⟩
      obtain ⟨q, live', same⟩ := frame.started live (recorded.done live done).1
      exact ⟨q, live', by rwa [same.has], by rwa [same.has]⟩
    · rintro ⟨q, live, done, request⟩
      obtain ⟨p, live', same⟩ := frame.taken live (.inr done)
      rw [same.has] at done request
      exact ⟨p, live', done, request⟩

theorem Recorded.start (recorded : Recorded env x limit proofs bytes doneProofs answered) (table : WellFormed proofs)
    (live : LiveAt proofs idx p) (waits : p.has HW_VDF_PROOF_FLAG_STARTED = false) (reached : p.iters ≤ limit) :
    Recorded env x limit (proofs.set idx { p with flags := p.flags ||| HW_VDF_PROOF_FLAG_STARTED }) bytes doneProofs
      answered := by
  have flagged := flagged_started (table.flags live)
  have open_ : p.has HW_VDF_PROOF_FLAG_DONE = false := by
    by_contra done
    have on := (recorded.done live (by simpa using done)).1
    simp [waits] at on
  constructor
  · intro i q live' on
    rcases (liveAt_set live flagged.flags).mp live' with ⟨rfl, rfl⟩ | ⟨-, old⟩
    · exact reached
    · exact recorded.started old on
  · intro i q live' done
    rcases (liveAt_set live flagged.flags).mp live' with ⟨rfl, rfl⟩ | ⟨-, old⟩
    · rw [has_or, open_] at done
      cases done
    · exact recorded.done old done
  · exact recorded.once
  · intro i
    rw [recorded.listed]
    constructor
    · rintro ⟨q, old, done, request⟩
      have other : i ≠ idx := by
        rintro rfl
        obtain rfl := live.unique old
        simp [open_] at done
      exact ⟨q, (liveAt_set live flagged.flags).mpr (.inr ⟨other, old⟩), done, request⟩
    · rintro ⟨q, live', done, request⟩
      rcases (liveAt_set live flagged.flags).mp live' with ⟨rfl, rfl⟩ | ⟨-, old⟩
      · rw [has_or, open_] at done
        cases done
      · exact ⟨q, old, done, request⟩

theorem Recorded.finish (recorded : Recorded env x limit proofs bytes doneProofs answered) (table : WellFormed proofs)
    (live : LiveAt proofs idx p) (started : p.has HW_VDF_PROOF_FLAG_STARTED = true)
    (open_ : p.has HW_VDF_PROOF_FLAG_DONE = false) {out : SegmentBytes} {segm : Segment}
    (proven : Proven env x p out segm) :
    Recorded env x limit (proofs.set idx { p with flags := p.flags ||| HW_VDF_PROOF_FLAG_DONE })
      (Function.update bytes idx out)
      (if p.has HW_VDF_PROOF_FLAG_IS_REQ then doneProofs ++ [idx] else doneProofs) answered := by
  have flagged := flagged_done (table.flags live)
  have fresh : idx ∉ answered ++ doneProofs := by
    rw [recorded.listed]
    rintro ⟨q, old, done, -⟩
    obtain rfl := live.unique old
    simp [open_] at done
  constructor
  · intro i q live' on
    rcases (liveAt_set live flagged.flags).mp live' with ⟨rfl, rfl⟩ | ⟨-, old⟩
    · have reached := recorded.started live started
      exact reached
    · exact recorded.started old on
  · intro i q live' done
    rcases (liveAt_set live flagged.flags).mp live' with ⟨rfl, rfl⟩ | ⟨other, old⟩
    · refine ⟨by simp [has_or, started], segm, ?_⟩
      obtain ⟨honest, check, length, small, written⟩ := proven
      rw [Function.update_self]
      exact ⟨honest, check, length, small, by rwa [flagged.request]⟩
    · rw [Function.update_of_ne other]
      exact recorded.done old done
  · split_ifs
    · have once := recorded.once.concat fresh
      rwa [List.concat_eq_append, List.append_assoc] at once
    · exact recorded.once
  · intro i
    have members : i ∈ answered ++ (if p.has HW_VDF_PROOF_FLAG_IS_REQ then doneProofs ++ [idx] else doneProofs) ↔
        i ∈ answered ++ doneProofs ∨ i = idx ∧ p.has HW_VDF_PROOF_FLAG_IS_REQ = true := by
      split_ifs with request
      · simp [request, or_assoc]
      · simp [request]
    rw [members, recorded.listed]
    constructor
    · rintro (⟨q, old, done, request⟩ | ⟨rfl, request⟩)
      · have other : i ≠ idx := by
          rintro rfl
          exact fresh ((recorded.listed i).mpr ⟨q, old, done, request⟩)
        exact ⟨q, (liveAt_set live flagged.flags).mpr (.inr ⟨other, old⟩), done, request⟩
      · refine ⟨_, (liveAt_set live flagged.flags).mpr (.inl ⟨rfl, rfl⟩), ?_, by rwa [flagged.request]⟩
        simp [has_or, HW_VDF_PROOF_FLAG_DONE]
    · rintro ⟨q, live', done, request⟩
      rcases (liveAt_set live flagged.flags).mp live' with ⟨rfl, rfl⟩ | ⟨-, old⟩
      · exact .inr ⟨rfl, by rwa [flagged.request] at request⟩
      · exact .inl ⟨q, old, done, request⟩

/-- A request that is answered moves from the one list to the other. -/
theorem Recorded.answer {before after : List ℕ}
    (recorded : Recorded env x limit proofs bytes (before ++ idx :: after) answered) :
    Recorded env x limit proofs bytes (before ++ after) (answered ++ [idx]) := by
  have moved : (answered ++ (before ++ idx :: after)).Perm (answered ++ [idx] ++ (before ++ after)) := by
    rw [List.append_assoc]
    apply List.Perm.append_left
    exact List.perm_middle
  exact ⟨recorded.started, recorded.done, moved.nodup_iff.mp recorded.once, fun i =>
    moved.mem_iff.symm.trans (recorded.listed i)⟩

end Recorded

end VdfProofs

end ChiaVdf
