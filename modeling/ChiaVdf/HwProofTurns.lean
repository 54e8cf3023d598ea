import ChiaVdf.HwProofChains

/-! A turn of the planning loop. It first takes away the queued requests that are not below the new one; what
is left in the queue is below it, so that the new request ends up last. -/
namespace ChiaVdf

open PrevChain

namespace VdfProofs

/-- A request that is planned. -/
def IsReq (proofs : List VdfProof) (i : ℕ) : Prop :=
  ∃ p, LiveAt proofs i p ∧ p.has HW_VDF_PROOF_FLAG_IS_REQ = true

section Base

variable {proofs : List VdfProof} {queued heads idxs : List ℕ} {i j idx n : ℕ} {p q : VdfProof}

theorem itersOf_eq (entry : proofs[i]? = some p) : itersOf proofs i = p.iters := by rw [itersOf, entry]

theorem cntSegments_eq (descending : Descending (prevOf proofs)) {fuel : ℕ} (enough : idx < fuel)
    (inside : ∀ j ∈ chain (prevOf proofs) idx, j < proofs.length)
    (short : (chain (prevOf proofs) idx).length < 256) :
    cntSegments proofs fuel idx = .done (chain (prevOf proofs) idx).length := by
  induction idx using link_induction descending generalizing fuel with
  | root idx root =>
    obtain ⟨fuel, rfl⟩ : ∃ n, fuel = n + 1 := ⟨fuel - 1, by omega⟩
    have entry := List.getElem?_eq_getElem (inside idx mem_chain_self)
    have last := (prevOf_eq_none entry).mp root
    rw [cntSegments, proofAt_eq entry, Exec.done_bind, if_pos last, chain_root root]
    rfl
  | step idx j link ih =>
    obtain ⟨fuel, rfl⟩ : ∃ n, fuel = n + 1 := ⟨fuel - 1, by omega⟩
    obtain ⟨r, entry⟩ : ∃ r, proofs[idx]? = some r := ⟨_, List.getElem?_eq_getElem (inside idx mem_chain_self)⟩
    obtain ⟨rfl, more⟩ := (prevOf_eq_some entry).mp link
    have below := descending idx _ link
    rw [chain_step descending link, List.length_cons] at short ⊢
    have inside' : ∀ k ∈ chain (prevOf proofs) r.prev, k < proofs.length := fun k member =>
      inside k ((mem_chain_step descending link).mpr (.inr member))
    have rest : cntSegments proofs fuel r.prev = .done (chain (prevOf proofs) r.prev).length :=
      ih (by omega) inside' (by omega)
    rw [cntSegments, proofAt_eq entry, Exec.done_bind, if_neg more, rest, Exec.done_bind, Exec.pure_eq,
      Nat.mod_eq_of_lt (by omega)]

theorem WellFormed.inside (table : WellFormed proofs) (live : LiveAt proofs i p) :
    ∀ j ∈ chain (prevOf proofs) i, j < proofs.length := by
  intro j member
  obtain ⟨q, at_j⟩ := table.live_of_mem live member
  exact at_j.lt

/-- What the search finds is a checkpoint of the queue that the request can go on from. -/
structure IsBase (proofs : List VdfProof) (idxs : List ℕ) (n b : ℕ) (q : VdfProof) : Prop where
  member : b ∈ idxs
  live : LiveAt proofs b q
  chkp : q.has HW_VDF_PROOF_FLAG_IS_REQ = false
  le : q.iters ≤ n
  short : (chain (prevOf proofs) b).length ≤ maxChkpSegments

theorem findBase_spec (table : WellFormed proofs) (live : ∀ i ∈ idxs, ∃ p, LiveAt proofs i p) :
    ∃ base, findBase proofs n idxs = .done base ∧ ∀ b, base = some b → ∃ q, IsBase proofs idxs n b q := by
  induction idxs with
  | nil => exact ⟨none, rfl, by simp⟩
  | cons idx idxs ih =>
    obtain ⟨base, run, found⟩ := ih fun i member => live i (List.mem_cons_of_mem _ member)
    have later : ∀ b, base = some b → ∃ q, IsBase proofs (idx :: idxs) n b q := by
      intro b eq
      obtain ⟨q, is_base⟩ := found b eq
      exact ⟨q, { is_base with member := List.mem_cons_of_mem _ is_base.member }⟩
    obtain ⟨p, at_idx⟩ := live idx (List.mem_cons_self ..)
    rw [findBase, proofAt_eq at_idx.entry, Exec.done_bind]
    by_cases request : p.has HW_VDF_PROOF_FLAG_IS_REQ = true
    · rw [if_pos request]
      exact ⟨base, run, later⟩
    · have chkp : p.has HW_VDF_PROOF_FLAG_IS_REQ = false := by simpa using request
      have depth := table.depth at_idx
      rw [if_neg request] at depth
      rw [if_neg request, cntSegments_eq table.descending at_idx.lt (table.inside at_idx) (by omega),
        Exec.done_bind]
      by_cases fits : p.iters ≤ n ∧ (chain (prevOf proofs) idx).length ≤ maxChkpSegments
      · rw [if_pos fits]
        refine ⟨some idx, rfl, ?_⟩
        rintro b ⟨⟩
        exact ⟨p, List.mem_cons_self .., at_idx, chkp, fits.1, fits.2⟩
      · rw [if_neg fits]
        exact ⟨base, run, later⟩

/-- An entry that waits is reached by a request that waits, and comes before it. -/
theorem Counted.queued_head (counted : Counted proofs queued heads []) (member : i ∈ queued) :
    ∃ h ∈ heads, h ∈ queued ∧ i ∈ chain (prevOf proofs) h := by
  have table := counted.table
  have used : refs (prevOf proofs) heads i ≠ 0 := by
    intro zero
    exact absurd ((counted.unused i member).mp zero) List.not_mem_nil
  obtain ⟨h, head, reach⟩ := refs_pos.mp (Nat.pos_of_ne_zero used)
  obtain ⟨p, live⟩ := counted.alive h head
  obtain ⟨q, at_i, waits⟩ := (counted.queue i).mp member
  refine ⟨h, head, (counted.queue h).mpr ⟨p, live, ?_⟩, reach⟩
  by_contra started
  have has := table.started_of_mem live (by simpa using started) reach at_i
  simp [waits] at has

/-- A checkpoint of the queue comes strictly before some request of the queue. -/
theorem Counted.chkp_lt (counted : Counted proofs queued heads []) (requests : ∀ h ∈ heads, IsReq proofs h)
    (member : i ∈ queued) (live : LiveAt proofs i q) (chkp : q.has HW_VDF_PROOF_FLAG_IS_REQ = false)
    (below : ∀ h ∈ queued, IsReq proofs h → itersOf proofs h ≤ n) : q.iters < n := by
  obtain ⟨h, head, waits, reach⟩ := counted.queued_head member
  obtain ⟨p, at_h, request⟩ := requests h head
  have ne : i ≠ h := by
    rintro rfl
    obtain rfl := live.unique at_h
    simp [chkp] at request
  have lt := counted.table.iters_lt_of_mem at_h reach ne live
  have le := below h waits (requests h head)
  rw [itersOf_eq at_h.entry] at le
  omega

end Base

section TearDown

variable {vdf : VdfProofs} {proofs : List VdfProof} {queued heads requested idxs : List ℕ} {i j n : ℕ}
  {p q : VdfProof} {std : StdSort}

/-- The requests that are pending or planned; `heads` are the entries of the planned ones. -/
structure Planned (vdf : VdfProofs) (heads requested : List ℕ) : Prop where
  counted : Counted vdf.proofs vdf.queuedProofs heads []
  once : heads.Nodup
  requests : ∀ i, i ∈ heads ↔ IsReq vdf.proofs i
  places : (vdf.reqProofs.map VdfProofReq.iters ++ heads.map (itersOf vdf.proofs)).Perm requested
  ordered : vdf.reqProofs.Pairwise (·.iters ≤ ·.iters)

/-- A request that a new one for `n` iterations takes away. -/
def torn (proofs : List VdfProof) (n i : ℕ) : Bool :=
  (proofs[i]?).any fun p => p.has HW_VDF_PROOF_FLAG_IS_REQ && decide (n ≤ p.iters)

theorem torn_eq (entry : proofs[i]? = some p) :
    torn proofs n i = (p.has HW_VDF_PROOF_FLAG_IS_REQ && decide (n ≤ p.iters)) := by
  rw [torn, entry, Option.any_some]

theorem Counted.perm {heads' toDel : List ℕ} (counted : Counted proofs queued heads toDel)
    (perm : heads.Perm heads') : Counted proofs queued heads' toDel := {
  counted with
  alive := fun h head => counted.alive h (perm.mem_iff.mpr head)
  counts := fun member entry => (counted.counts member entry).trans (refs_perm perm)
  unused := fun i member => by rw [← refs_perm perm]; exact counted.unused i member }

theorem requestProof_perm (std : StdSort) (vdf : VdfProofs) (n : ℕ) (isChkp : Bool) :
    ((vdf.requestProof std n isChkp).reqProofs.map VdfProofReq.iters).Perm
      (n :: vdf.reqProofs.map VdfProofReq.iters) := by
  refine ((std.perm _ _).map _).trans ?_
  rw [List.map_append, List.map_singleton]
  exact List.perm_append_singleton _ _

variable (std) in
/-- The requests taken away are pending again. -/
theorem requeue_spec (live : ∀ i ∈ idxs, ∃ p, LiveAt vdf.proofs i p)
    (ordered : vdf.reqProofs.Pairwise (·.iters ≤ ·.iters)) : ∃ reqs,
      requeue std n idxs vdf = .done ({ vdf with reqProofs := reqs }, idxs.filter (torn vdf.proofs n)) ∧
      (reqs.map VdfProofReq.iters).Perm
        (vdf.reqProofs.map VdfProofReq.iters ++ (idxs.filter (torn vdf.proofs n)).map (itersOf vdf.proofs)) ∧
      reqs.Pairwise (·.iters ≤ ·.iters) := by
  induction idxs generalizing vdf with
  | nil => exact ⟨vdf.reqProofs, rfl, by simp, ordered⟩
  | cons idx idxs ih =>
    have live' : ∀ i ∈ idxs, ∃ p, LiveAt vdf.proofs i p := fun i member => live i (List.mem_cons_of_mem _ member)
    obtain ⟨p, at_idx⟩ := live idx (List.mem_cons_self ..)
    have taken := torn_eq (n := n) at_idx.entry
    rw [requeue, proofAt_eq at_idx.entry, Exec.done_bind]
    by_cases skip : (!p.has HW_VDF_PROOF_FLAG_IS_REQ || decide (n > p.iters)) = true
    · obtain ⟨reqs, run, perm, sorted⟩ := ih live' ordered
      have kept : torn vdf.proofs n idx = false := by
        rw [taken]
        simp only [Bool.or_eq_true, Bool.not_eq_true', decide_eq_true_eq] at skip
        rcases skip with chkp | less
        · rw [chkp, Bool.false_and]
        · rw [decide_eq_false (by omega), Bool.and_false]
      rw [if_pos skip, List.filter_cons_of_neg (by simp [kept])]
      exact ⟨reqs, run, perm, sorted⟩
    · have gone : torn vdf.proofs n idx = true := by
        rw [taken]
        simp only [Bool.or_eq_true, Bool.not_eq_true', decide_eq_true_eq, not_or] at skip
        obtain ⟨request, less⟩ := skip
        rw [Bool.eq_true_of_not_eq_false request, decide_eq_true (by omega), Bool.and_true]
      have live'' : ∀ i ∈ idxs, ∃ q, LiveAt (vdf.requestProof std p.iters false).proofs i q := live'
      obtain ⟨reqs, run, perm, sorted⟩ := ih live'' (std.sorted _ _)
      refine ⟨reqs, ?_, ?_, sorted⟩
      · rw [if_neg skip, run, Exec.done_bind, List.filter_cons_of_pos gone]
        rfl
      · rw [List.filter_cons_of_pos gone, List.map_cons, itersOf_eq at_idx.entry]
        have pending := (requestProof_perm std vdf p.iters false).append_right
          ((idxs.filter (torn vdf.proofs n)).map (itersOf vdf.proofs))
        exact (perm.trans pending).trans List.perm_middle.symm

theorem itersOf_agrees {proofs' : List VdfProof} (agrees : Agrees proofs proofs') (live : LiveAt proofs' i q) :
    itersOf proofs' i = itersOf proofs i := by
  obtain ⟨r, at_i, iters, -⟩ := agrees live
  rw [itersOf_eq live.entry, itersOf_eq at_i.entry, iters]

theorem IsReq.of_agrees {proofs' : List VdfProof} (agrees : Agrees proofs proofs') (req : IsReq proofs' i) :
    IsReq proofs i := by
  obtain ⟨q, live, request⟩ := req
  obtain ⟨r, at_i, -, flags⟩ := agrees live
  exact ⟨r, at_i, by rwa [VdfProof.has, flags] at request⟩

theorem IsReq.agrees {proofs' : List VdfProof} (agrees : Agrees proofs proofs') (req : IsReq proofs i)
    (live : LiveAt proofs' i q) : IsReq proofs' i := by
  obtain ⟨p, at_i, request⟩ := req
  obtain ⟨r, at_i', -, flags⟩ := agrees live
  obtain rfl := at_i.unique at_i'
  exact ⟨q, live, by rwa [VdfProof.has, flags]⟩

theorem Counted.head_of_queued (counted : Counted proofs queued heads []) (member : i ∈ queued)
    (req : IsReq proofs i) : i ∈ heads := by
  obtain ⟨h, head, -, reach⟩ := counted.queued_head member
  obtain ⟨p, at_h⟩ := counted.alive h head
  obtain ⟨q, at_i, request⟩ := req
  by_cases same : i = h
  · exact same ▸ head
  · have chkp := counted.table.chkp_of_mem at_h reach same at_i
    simp [chkp] at request

theorem length_le_of_live (once : heads.Nodup) (live : ∀ h ∈ heads, ∃ p, LiveAt proofs h p) :
    heads.length ≤ proofs.length := by
  have subset : heads ⊆ List.range proofs.length := by
    intro h head
    obtain ⟨p, at_h⟩ := live h head
    exact List.mem_range.mpr at_h.lt
  simpa using (once.subperm subset).length_le

theorem Counted.torn_iff (counted : Counted proofs queued heads []) (waits : i ∈ queued) :
    torn proofs n i = true ↔ IsReq proofs i ∧ n ≤ itersOf proofs i := by
  obtain ⟨p, at_i, -⟩ := (counted.queue i).mp waits
  rw [torn_eq at_i.entry, itersOf_eq at_i.entry, Bool.and_eq_true, decide_eq_true_eq]
  refine and_congr_left fun _ => ⟨fun request => ⟨p, at_i, request⟩, ?_⟩
  rintro ⟨q, at_i', request⟩
  exact at_i.unique at_i' ▸ request

/-- The requests that are taken away are heads, and the others stay. -/
theorem Counted.split_torn (counted : Counted proofs queued heads []) (once : heads.Nodup) :
    heads.Perm (queued.filter (torn proofs n) ++ heads.filter (· ∉ queued.filter (torn proofs n))) := by
  have same : (heads.filter (· ∈ queued.filter (torn proofs n))).Perm (queued.filter (torn proofs n)) := by
    refine (List.perm_ext_iff_of_nodup (once.filter _) (counted.nodup.filter _)).mpr fun i => ?_
    rw [List.mem_filter, decide_eq_true_eq]
    refine ⟨And.right, fun member => ⟨?_, member⟩⟩
    obtain ⟨waits, gone⟩ := List.mem_filter.mp member
    exact counted.head_of_queued waits ((counted.torn_iff waits).mp gone).1
  have parts := (List.filter_append_perm (· ∈ queued.filter (torn proofs n)) heads).symm
  simp only [decide_not] at parts ⊢
  exact parts.trans (same.append_right _)

/-- Heads and requests are still the same entries when some of those that wait are taken away. -/
theorem Planned.requests_kept {proofs' : List VdfProof} {queued' toDel : List ℕ}
    (planned : Planned vdf heads requested) (waits : ∀ i ∈ toDel, i ∈ vdf.queuedProofs)
    (counted' : Counted proofs' queued' (heads.filter (· ∉ toDel)) []) (agrees : Agrees vdf.proofs proofs') (i : ℕ) :
    i ∈ heads.filter (· ∉ toDel) ↔ IsReq proofs' i := by
  constructor
  · intro head
    obtain ⟨q, at_i⟩ := counted'.alive i head
    exact ((planned.requests i).mp (List.mem_filter.mp head).1).agrees agrees at_i
  · intro req
    have ⟨q, at_i, _⟩ := req
    have head := (planned.requests i).mpr (req.of_agrees agrees)
    by_cases started : q.has HW_VDF_PROOF_FLAG_STARTED = true
    · obtain ⟨r, at_i', -, flags⟩ := agrees at_i
      refine List.mem_filter.mpr ⟨head, decide_eq_true fun gone => ?_⟩
      obtain ⟨u, at_i'', waiting⟩ := (planned.counted.queue i).mp (waits i gone)
      obtain rfl := at_i'.unique at_i''
      rw [VdfProof.has, flags] at started
      rw [VdfProof.has, started] at waiting
      exact absurd waiting (by decide)
    · exact counted'.head_of_queued ((counted'.queue i).mpr ⟨q, at_i, by simpa using started⟩) req

variable (std n) in
/-- Tearing down the requests that are not below `n` makes them pending again. -/
theorem Planned.tearDown (planned : Planned vdf heads requested) : ∃ t heads',
    vdf.tearDown std n = .done t ∧ Planned t heads' requested ∧
      (∀ h ∈ t.queuedProofs, IsReq t.proofs h → itersOf t.proofs h ≤ n) ∧
      ∀ r ∈ t.reqProofs, r.iters ∈ vdf.reqProofs.map VdfProofReq.iters ∨ n ≤ r.iters := by
  have counted := planned.counted
  have live : ∀ i ∈ vdf.queuedProofs, ∃ p, LiveAt vdf.proofs i p := by
    intro i member
    obtain ⟨p, at_i, -⟩ := (counted.queue i).mp member
    exact ⟨p, at_i⟩
  obtain ⟨reqs, run, perm, ordered⟩ := requeue_spec std (n := n) live planned.ordered
  have split := counted.split_torn (n := n) planned.once
  set toDel := vdf.queuedProofs.filter (torn vdf.proofs n) with toDel_eq
  have mem_toDel {i : ℕ} : i ∈ toDel ↔ i ∈ vdf.queuedProofs ∧ torn vdf.proofs n i = true := by
    rw [toDel_eq, List.mem_filter]
  have total : (toDel ++ heads.filter (· ∉ toDel)).length ≤ 2 ^ 16 - 1 := by
    have few := length_le_of_live planned.once counted.alive
    have size := counted.table.size
    have same := split.length_eq
    omega
  obtain ⟨proofs', queued', dec, counted', agrees, sub⟩ :=
    (counted.perm split).decRef std { vdf with reqProofs := reqs } total
  have agrees' : Agrees vdf.proofs proofs' := agrees
  refine ⟨_, heads.filter (· ∉ toDel), by rw [VdfProofs.tearDown, run, Exec.done_bind]; exact dec, ?_, ?_, ?_⟩
  · have same : (heads.filter (· ∉ toDel)).map (itersOf proofs') =
        (heads.filter (· ∉ toDel)).map (itersOf vdf.proofs) := by
      refine List.map_congr_left fun h head => ?_
      obtain ⟨q, at_h⟩ := counted'.alive h head
      exact itersOf_agrees agrees' at_h
    exact {
      counted := counted'
      once := planned.once.filter _
      requests := planned.requests_kept (fun i member => (mem_toDel.mp member).1) counted' agrees'
      places := by
        rw [same]
        refine (perm.append_right _).trans ?_
        rw [List.append_assoc, ← List.map_append]
        exact ((split.map _).symm.append_left _).trans planned.places
      ordered := ordered }
  · intro h waits req
    by_contra above
    have head := counted'.head_of_queued waits req
    obtain ⟨q, at_h⟩ := counted'.alive h head
    obtain ⟨head', fresh⟩ := List.mem_filter.mp head
    have old := sub.subset waits
    have le : n ≤ itersOf vdf.proofs h := by
      rw [← itersOf_agrees agrees' at_h]
      exact (not_le.mp above).le
    have gone := (counted.torn_iff old).mpr ⟨(planned.requests h).mp head', le⟩
    exact absurd (mem_toDel.mpr ⟨old, gone⟩) (by simpa using fresh)
  · intro r member
    have mem := perm.mem_iff.mp (List.mem_map_of_mem member)
    rcases List.mem_append.mp mem with old | again
    · exact .inl old
    · obtain ⟨i, gone, eq⟩ := List.mem_map.mp again
      obtain ⟨waits, taken⟩ := mem_toDel.mp gone
      exact .inr (eq ▸ ((counted.torn_iff waits).mp taken).2)

end TearDown

section Plan

variable {vdf u t : VdfProofs} {heads requested : List ℕ} {seg pos flags n i : ℕ} {std : StdSort}

variable (seg flags) in
theorem queueProof_done (valid : pos = HW_VDF_PROOF_NONE ∨ pos < vdf.proofs.length) :
    ∃ u m, vdf.queueProof seg pos flags = .done (u, m) ∧ m < u.proofs.length := by
  have ends : ∃ iters, segmentEnd vdf.proofs seg pos = .done iters := by
    unfold segmentEnd
    split_ifs with none
    · exact ⟨seg, rfl⟩
    · have entry := List.getElem?_eq_getElem (valid.resolve_left none)
      exact ⟨_, by rw [proofAt_eq entry]; rfl⟩
  obtain ⟨iters, run⟩ := ends
  rw [VdfProofs.queueProof, run, Exec.done_bind]
  refine ⟨_, _, rfl, ?_⟩
  have le : vdf.proofs.length % 2 ^ 16 ≤ vdf.proofs.length := Nat.mod_le ..
  rw [List.length_append, List.length_singleton]
  omega

theorem queueReq_done (valid : pos = HW_VDF_PROOF_NONE ∨ pos < vdf.proofs.length) :
    ∃ t, vdf.queueReq seg pos = .done t := by
  obtain ⟨u, m, run, -⟩ := queueProof_done seg HW_VDF_PROOF_FLAG_IS_REQ valid
  exact ⟨u, by rw [queueReq, run]; rfl⟩

theorem queueChkp_done {chkp : ℕ} (valid : pos = HW_VDF_PROOF_NONE ∨ pos < vdf.proofs.length) :
    ∃ t, vdf.queueChkp chkp n pos = .done t := by
  obtain ⟨u, m, run, inside⟩ := queueProof_done
    (chkp / HW_VDF_VALUE_INTERVAL * HW_VDF_VALUE_INTERVAL) 0 valid
  rw [queueChkp, run]
  exact queueReq_done (.inr inside)

variable (n) in
theorem queueSegments_done (valid : pos = HW_VDF_PROOF_NONE ∨ pos < vdf.proofs.length) :
    ∃ t, vdf.queueSegments n pos = .done t := by
  unfold queueSegments
  dsimp only
  split_ifs with large split
  · obtain ⟨u, m, run, inside⟩ := queueProof_done
      (n * 69 % 2 ^ 64 / 100 / HW_VDF_VALUE_INTERVAL * HW_VDF_VALUE_INTERVAL) 0 valid
    rw [run]
    exact queueChkp_done (.inr inside)
  · exact queueChkp_done valid
  · exact queueReq_done valid

/-- `queued_proofs` is sorted by `iters`. -/
def QueueSorted (vdf : VdfProofs) : Prop :=
  vdf.queuedProofs.Pairwise fun i j => itersOf vdf.proofs i ≤ itersOf vdf.proofs j

theorem queueSorted_sortQueue : QueueSorted (vdf.sortQueue std) := std.sorted _ _

theorem Counted.perm_queue {proofs : List VdfProof} {queued queued' toDel : List ℕ}
    (counted : Counted proofs queued heads toDel) (perm : queued'.Perm queued) : Counted proofs queued' heads toDel := {
  counted with
  queue := fun i => perm.mem_iff.trans (counted.queue i)
  nodup := perm.nodup_iff.mpr counted.nodup
  counts := fun member => counted.counts (perm.mem_iff.mp member)
  unused := fun i member => counted.unused i (perm.mem_iff.mp member)
  deletes := fun i member => perm.mem_iff.mpr (counted.deletes i member) }

/-- The table with the chain that a request goes on from counted once more. -/
structure Resumed (vdf u : VdfProofs) (heads : List ℕ) : Prop where
  agrees : Agrees vdf.proofs u.proofs
  alive : ∀ h ∈ heads, ∃ p, LiveAt u.proofs h p
  reqs : u.reqProofs = vdf.reqProofs
  queue : u.queuedProofs = vdf.queuedProofs

theorem Planned.place {r : ℕ} (planned : Planned vdf heads requested) (resumed : Resumed vdf u heads)
    (placed : Placed u t heads r n) : Planned (t.sortQueue std) (r :: heads) (n :: requested) where
  counted := placed.counted.perm_queue (std.perm _ _)
  once := by
    refine List.nodup_cons.mpr ⟨fun head => ?_, planned.once⟩
    obtain ⟨p, live⟩ := resumed.alive r head
    have low := live.lt
    have fresh := placed.fresh
    omega
  requests := by
    intro i
    rw [List.mem_cons]
    constructor
    · rintro (rfl | head)
      · obtain ⟨p, live, request, -⟩ := placed.request
        exact ⟨p, live, request⟩
      · obtain ⟨p, live⟩ := resumed.alive i head
        obtain ⟨q, live', request⟩ := ((planned.requests i).mp head).agrees resumed.agrees live
        exact ⟨q, placed.old live', request⟩
    · rintro ⟨q, live, request⟩
      rcases placed.new live with old | here | ⟨chkp, -⟩
      · exact .inr ((planned.requests i).mpr (IsReq.of_agrees resumed.agrees ⟨q, old, request⟩))
      · exact .inl here
      · simp [chkp] at request
  places := by
    obtain ⟨p, live, -, iters⟩ := placed.request
    have same : heads.map (itersOf t.proofs) = heads.map (itersOf vdf.proofs) := by
      refine List.map_congr_left fun h head => ?_
      obtain ⟨q, at_h⟩ := resumed.alive h head
      rw [itersOf_eq (placed.old at_h).entry, ← itersOf_eq at_h.entry]
      exact itersOf_agrees resumed.agrees at_h
    have here : itersOf t.proofs r = n := (itersOf_eq live.entry).trans iters
    show (t.reqProofs.map VdfProofReq.iters ++ (r :: heads).map (itersOf t.proofs)).Perm (n :: requested)
    rw [List.map_cons, here, same, placed.reqs, resumed.reqs]
    exact List.perm_middle.trans (planned.places.cons n)
  ordered := by
    show t.reqProofs.Pairwise (·.iters ≤ ·.iters)
    rw [placed.reqs, resumed.reqs]
    exact planned.ordered

theorem Planned.place_le {r : ℕ} (planned : Planned vdf heads requested) (resumed : Resumed vdf u heads)
    (below : ∀ h ∈ vdf.queuedProofs, IsReq vdf.proofs h → itersOf vdf.proofs h ≤ n)
    (placed : Placed u t heads r n) (member : i ∈ t.queuedProofs) : itersOf t.proofs i ≤ n := by
  obtain ⟨q, live, waits⟩ := (placed.counted.queue i).mp member
  rw [itersOf_eq live.entry]
  rcases placed.new live with old | here | ⟨-, small⟩
  · obtain ⟨p, at_i, iters, flags⟩ := resumed.agrees old
    have waits' : p.has HW_VDF_PROOF_FLAG_STARTED = false := by rwa [VdfProof.has, ← flags]
    have queued := (planned.counted.queue i).mpr ⟨p, at_i, waits'⟩
    rw [iters]
    by_cases request : p.has HW_VDF_PROOF_FLAG_IS_REQ = true
    · rw [← itersOf_eq at_i.entry]
      exact below i queued ⟨p, at_i, request⟩
    · exact (planned.counted.chkp_lt (fun h head => (planned.requests h).mp head) queued at_i
        (by simpa using request) below).le
  · obtain ⟨p, at_r, -, iters⟩ := placed.request
    subst here
    exact (live.unique at_r ▸ iters).le
  · exact small

theorem Planned.resume (planned : Planned vdf heads requested)
    (below : ∀ h ∈ vdf.queuedProofs, IsReq vdf.proofs h → itersOf vdf.proofs h ≤ n) {b : ℕ} {q : VdfProof}
    (is_base : IsBase vdf.proofs vdf.queuedProofs.reverse n b q) : ∃ proofs,
      incRef vdf.proofs.length vdf.proofs b = .done proofs ∧ b < proofs.length ∧ q.iters < n ∧
      HW_VDF_VALUE_INTERVAL ∣ q.iters ∧
      Resumed vdf { vdf with proofs := proofs } heads ∧
      Building { vdf with proofs := proofs } heads (some b) q.iters maxChkpSegments := by
  have counted := planned.counted
  have member := List.mem_reverse.mp is_base.member
  have requests : ∀ h ∈ heads, IsReq vdf.proofs h := fun h head => (planned.requests h).mp head
  have room : heads.length < 2 ^ 16 - 1 := by
    have other : b ∉ heads := by
      intro head
      obtain ⟨p, at_b, request⟩ := requests b head
      obtain rfl := is_base.live.unique at_b
      simp [is_base.chkp] at request
    have live : ∀ h ∈ b :: heads, ∃ p, LiveAt vdf.proofs h p := by
      intro h head
      rcases List.mem_cons.mp head with rfl | old
      · exact ⟨q, is_base.live⟩
      · exact counted.alive h old
    have few := length_le_of_live (List.nodup_cons.mpr ⟨other, planned.once⟩) live
    have size := counted.table.size
    rw [List.length_cons] at few
    omega
  obtain ⟨proofs, run, counted', links, size, agrees⟩ := counted.incRef is_base.live room
  have agrees' : Agrees vdf.proofs proofs := agrees
  obtain ⟨q', at_b⟩ := counted'.alive b (List.mem_cons_self ..)
  obtain ⟨r, at_b', iters, flags⟩ := agrees' at_b
  obtain rfl := is_base.live.unique at_b'
  refine ⟨proofs, run, at_b.lt, counted.chkp_lt requests member is_base.live is_base.chkp below,
    counted.table.chkp is_base.live is_base.chkp, ?_, ?_⟩
  · exact {
      agrees := agrees'
      alive := fun h head => counted'.alive h (List.mem_cons_of_mem _ head)
      reqs := rfl
      queue := rfl }
  · exact {
      counted := counted'
      ends := ⟨q', at_b, by rw [VdfProof.has, flags]; exact is_base.chkp, iters, by rw [links]; exact is_base.short⟩ }

variable (std) in
/-- A request is planned behind all that the queue holds. -/
theorem Planned.plan (planned : Planned vdf heads requested)
    (below : ∀ h ∈ vdf.queuedProofs, IsReq vdf.proofs h → itersOf vdf.proofs h ≤ n) (small : n * 92 < 2 ^ 64) :
    ∃ t, vdf.plan std n = .done t ∧ (t.proofs.length ≤ 65535 → ∃ heads', Planned t heads' (n :: requested) ∧
      QueueSorted t ∧ t.reqProofs = vdf.reqProofs ∧ vdf.queuedProofs.length < t.queuedProofs.length ∧
      ∀ i ∈ t.queuedProofs, itersOf t.proofs i ≤ n) := by
  have counted := planned.counted
  have live : ∀ i ∈ vdf.queuedProofs.reverse, ∃ p, LiveAt vdf.proofs i p := by
    intro i member
    obtain ⟨p, at_i, -⟩ := (counted.queue i).mp (List.mem_reverse.mp member)
    exact ⟨p, at_i⟩
  have placed_planned {u t : VdfProofs} {r : ℕ} (resumed : Resumed vdf u heads) (placed : Placed u t heads r n) :
      ∃ heads', Planned (t.sortQueue std) heads' (n :: requested) ∧ QueueSorted (t.sortQueue std) ∧
        t.reqProofs = vdf.reqProofs ∧ vdf.queuedProofs.length < (t.sortQueue std).queuedProofs.length ∧
        ∀ i ∈ (t.sortQueue std).queuedProofs, itersOf t.proofs i ≤ n := by
    refine ⟨_, planned.place resumed placed, queueSorted_sortQueue, placed.reqs.trans resumed.reqs, ?_, ?_⟩
    · have longer := placed.longer
      rw [resumed.queue] at longer
      exact longer.trans_eq (std.perm _ _).length_eq.symm
    · intro i member
      exact planned.place_le resumed below placed ((std.perm _ _).mem_iff.mp member)
  obtain ⟨base, find, found⟩ := findBase_spec (n := n) counted.table live
  rw [VdfProofs.plan, find, Exec.done_bind]
  cases base with
  | none =>
    obtain ⟨t, run⟩ : ∃ t, vdf.queueSegments n HW_VDF_PROOF_NONE = .done t := queueSegments_done n (.inl rfl)
    refine ⟨t.sortQueue std, by simp only [run, Exec.done_bind, Exec.pure_eq], fun room => ?_⟩
    have resumed : Resumed vdf vdf heads := ⟨fun live => ⟨_, live, rfl, rfl⟩, counted.alive, rfl, rfl⟩
    have building : Building vdf heads none 0 0 := ⟨counted, rfl, rfl⟩
    obtain ⟨r, placed⟩ := building.queueSegments run room (dvd_zero _) (absurd rfl) small (by omega) (by decide)
    rw [Nat.zero_add] at placed
    exact placed_planned resumed placed
  | some b =>
    obtain ⟨q, is_base⟩ := found b rfl
    obtain ⟨proofs, inc, inside, lt, multiple, resumed, building⟩ := planned.resume below is_base
    obtain ⟨t, run⟩ : ∃ t, { vdf with proofs := proofs }.queueSegments (n - q.iters) b = .done t :=
      queueSegments_done (n - q.iters) (.inr inside)
    refine ⟨t.sortQueue std, ?_, fun room => ?_⟩
    · simp only [proofAt_eq is_base.live.entry, inc, run, Exec.done_bind, Exec.pure_eq]
    · obtain ⟨r, placed⟩ := building.queueSegments run room multiple (fun _ => by omega) (by omega) (by omega) le_rfl
      rw [show q.iters + (n - q.iters) = n by omega] at placed
      exact placed_planned resumed placed

end Plan

section Turn

variable {vdf t : VdfProofs} {heads requested : List ℕ} {n i : ℕ} {req : VdfProofReq} {reqs : List VdfProofReq}
  {std : StdSort}

/-- One turn of the planning loop. -/
def planTurn (std : StdSort) (vdf : VdfProofs) : Exec VdfProofs := do
  let due ← vdf.planDue
  if due then vdf.processReq std else .done vdf

def planTurns (std : StdSort) : ℕ → VdfProofs → Exec VdfProofs
  | 0, vdf => .done vdf
  | n + 1, vdf => do
    let vdf ← vdf.planTurn std
    planTurns std n vdf

/-- No request would tear down what is queued. -/
def Settled (vdf : VdfProofs) : Prop :=
  ∀ r ∈ vdf.reqProofs, ∀ i ∈ vdf.queuedProofs, itersOf vdf.proofs i ≤ r.iters

theorem shouldQueue_eq (live : ∀ i ∈ vdf.queuedProofs, ∃ p, LiveAt vdf.proofs i p)
    (some : vdf.queuedProofs ≠ []) :
    vdf.shouldQueue n = .done (decide (n < itersOf vdf.proofs (vdf.queuedProofs.getLast some))) := by
  obtain ⟨p, at_last⟩ := live _ (List.getLast_mem some)
  rw [shouldQueue, hasBack, List.getLast?_eq_getLast_of_ne_nil some, Exec.done_bind, proofAt_eq at_last.entry,
    Exec.done_bind, itersOf_eq at_last.entry, Exec.pure_eq]

theorem QueueSorted.le_last (sorted : QueueSorted vdf) (member : i ∈ vdf.queuedProofs) :
    itersOf vdf.proofs i ≤
      itersOf vdf.proofs (vdf.queuedProofs.getLast (List.ne_nil_of_mem member)) := by
  have : Std.Refl fun i j => itersOf vdf.proofs i ≤ itersOf vdf.proofs j := ⟨fun _ => le_rfl⟩
  exact List.Pairwise.rel_getLast sorted member

theorem Planned.live (planned : Planned vdf heads requested) :
    ∀ i ∈ vdf.queuedProofs, ∃ p, LiveAt vdf.proofs i p := by
  intro i member
  obtain ⟨p, at_i, -⟩ := (planned.counted.queue i).mp member
  exact ⟨p, at_i⟩

theorem Planned.of_perm {requested' : List ℕ} (planned : Planned vdf heads requested)
    (perm : requested.Perm requested') : Planned vdf heads requested' := {
  planned with places := planned.places.trans perm }

theorem later_eq (live : ∀ i ∈ vdf.queuedProofs, ∃ p, LiveAt vdf.proofs i p) (sorted : QueueSorted vdf) :
    ∃ later, (if vdf.queuedProofs = [] then .done false else vdf.shouldQueue n) = .done later ∧
      (later = false ↔ ∀ i ∈ vdf.queuedProofs, itersOf vdf.proofs i ≤ n) := by
  by_cases empty : vdf.queuedProofs = []
  · exact ⟨false, if_pos empty, by simp [empty]⟩
  · refine ⟨_, by rw [if_neg empty, shouldQueue_eq live empty], ?_⟩
    rw [decide_eq_false_iff_not, not_lt]
    constructor
    · intro last i member
      exact (sorted.le_last member).trans last
    · intro all
      exact all _ (List.getLast_mem empty)

variable (std) in
/-- A turn plans the first request; what else is pending then comes after the queue. -/
theorem Planned.processReq (planned : Planned vdf heads requested) (sorted : QueueSorted vdf)
    (small : ∀ n ∈ requested, n * 92 < 2 ^ 64) (pending : vdf.reqProofs = req :: reqs) :
    ∃ t, vdf.processReq std = .done t ∧ (t.proofs.length ≤ 65535 → ∃ heads', Planned t heads' requested ∧
      QueueSorted t ∧ Settled t ∧ (Settled vdf → vdf.queuedProofs.length < t.queuedProofs.length)) := by
  have ordered := planned.ordered
  have places := planned.places
  rw [pending] at ordered places
  obtain ⟨first, ordered'⟩ := List.pairwise_cons.mp ordered
  have popped : Planned { vdf with reqProofs := reqs } heads
      (reqs.map VdfProofReq.iters ++ heads.map (itersOf vdf.proofs)) := {
    planned with
    places := .refl _
    ordered := ordered' }
  have small' : req.iters * 92 < 2 ^ 64 := small _ (places.mem_iff.mp (by simp))
  obtain ⟨later, decided, all⟩ := later_eq (n := req.iters) planned.live sorted
  have first' : ∀ r ∈ reqs.map VdfProofReq.iters, req.iters ≤ r := by
    intro r member
    obtain ⟨r, pend, rfl⟩ := List.mem_map.mp member
    exact first r pend
  have start : vdf.processReq std =
      ((if later then { vdf with reqProofs := reqs }.tearDown std req.iters else .done { vdf with reqProofs := reqs })
        >>= fun vdf => vdf.plan std req.iters) := by
    rw [VdfProofs.processReq, pending]
    dsimp only
    rw [show VdfProofs.shouldQueue { vdf with reqProofs := reqs } req.iters = vdf.shouldQueue req.iters from rfl]
    by_cases empty : vdf.queuedProofs = []
    · rw [if_pos empty] at decided ⊢
      obtain rfl := Exec.done.inj decided
      rfl
    · rw [if_neg empty] at decided ⊢
      rw [decided, Exec.done_bind]
      cases later <;> rfl
  cases later with
  | false =>
    have below := all.mp rfl
    obtain ⟨t, run, ends⟩ := popped.plan std (fun h waits _ => below h waits) small'
    refine ⟨t, start.trans run, fun room => ?_⟩
    obtain ⟨heads', planned', sorted', same, longer, least⟩ := ends room
    refine ⟨heads', planned'.of_perm places, sorted', ?_, fun _ => longer⟩
    intro r member i waits
    rw [same] at member
    exact (least i waits).trans (first r member)
  | true =>
    obtain ⟨u, heads', torn, planned', below, again⟩ := popped.tearDown req.iters std
    obtain ⟨t, run, ends⟩ := planned'.plan std below small'
    refine ⟨t, start.trans (by rw [if_pos rfl, torn, Exec.done_bind, run]), fun room => ?_⟩
    obtain ⟨heads'', planned'', sorted', same, -, least⟩ := ends room
    refine ⟨heads'', planned''.of_perm places, sorted', ?_, fun settled => ?_⟩
    · intro r member i waits
      rw [same] at member
      refine (least i waits).trans ?_
      rcases again r member with old | le
      · exact first' _ old
      · exact le
    · have still : true = false := all.mpr fun i waits =>
        settled req (by rw [pending]; exact List.mem_cons_self ..) i waits
      exact absurd still (by decide)

/-- The loop goes on only for a request that the queue has room for, or that tears something down. -/
theorem planDue_eq (live : ∀ i ∈ vdf.queuedProofs, ∃ p, LiveAt vdf.proofs i p) :
    ∃ due, vdf.planDue = .done due ∧ (due = true → ∃ req reqs, vdf.reqProofs = req :: reqs) ∧
      (due = true → Settled vdf → vdf.queuedProofs.length < 3) := by
  unfold planDue
  cases pending : vdf.reqProofs with
  | nil => exact ⟨false, rfl, by simp, by simp⟩
  | cons req reqs =>
    dsimp only
    by_cases few : vdf.queuedProofs.length < 3
    · exact ⟨true, if_pos few, fun _ => ⟨req, reqs, rfl⟩, fun _ _ => few⟩
    · have some : vdf.queuedProofs ≠ [] := by
        rintro empty
        simp [empty] at few
      refine ⟨_, by rw [if_neg few, shouldQueue_eq live some], fun _ => ⟨req, reqs, rfl⟩, fun due settled => ?_⟩
      have le := settled req (by rw [pending]; exact List.mem_cons_self ..) _ (List.getLast_mem some)
      rw [decide_eq_true_eq] at due
      omega

variable (std) in
theorem Planned.planTurn (planned : Planned vdf heads requested) (sorted : QueueSorted vdf)
    (small : ∀ n ∈ requested, n * 92 < 2 ^ 64) : ∃ t, vdf.planTurn std = .done t ∧ (t.proofs.length ≤ 65535 →
      (∃ heads', Planned t heads' requested ∧ QueueSorted t) ∧ (vdf.planDue = .done false ∨
        Settled t ∧ (Settled vdf →
          vdf.queuedProofs.length < 3 ∧ vdf.queuedProofs.length < t.queuedProofs.length))) := by
  obtain ⟨due, decided, pending, few⟩ := planDue_eq planned.live
  rw [VdfProofs.planTurn, decided, Exec.done_bind]
  cases due with
  | false => exact ⟨vdf, rfl, fun _ => ⟨⟨heads, planned, sorted⟩, .inl rfl⟩⟩
  | true =>
    obtain ⟨req, reqs, eq⟩ := pending rfl
    obtain ⟨t, run, ends⟩ := planned.processReq std sorted small eq
    refine ⟨t, run, fun room => ?_⟩
    obtain ⟨heads', planned', sorted', settled, longer⟩ := ends room
    exact ⟨⟨heads', planned', sorted'⟩, .inr ⟨settled, fun old => ⟨few rfl old, longer old⟩⟩⟩

theorem planLoop_of_turn {fuel : ℕ} {u : VdfProofs} (turn : vdf.planTurn std = .done u)
    (rest : planLoop std fuel u = .done t) : ∃ fuel t, planLoop std fuel vdf = .done t := by
  obtain ⟨due, decided, run⟩ := Exec.bind_eq_done.mp turn
  refine ⟨fuel + 1, ?_⟩
  rw [planLoop, decided, Exec.done_bind]
  cases due with
  | false => exact ⟨vdf, rfl⟩
  | true =>
    refine ⟨t, ?_⟩
    rw [if_pos rfl] at run ⊢
    rw [run]
    exact rest

theorem planLoop_of_not_due (idle : vdf.planDue = .done false) : planLoop std 1 vdf = .done vdf := by
  rw [planLoop, idle]
  rfl

/-- Once nothing is torn down any more, the loop ends when the queue has three entries. -/
theorem Planned.planLoop_settled (planned : Planned vdf heads requested) (sorted : QueueSorted vdf)
    (small : ∀ n ∈ requested, n * 92 < 2 ^ 64)
    (room : ∀ n t, planTurns std n vdf = .done t → t.proofs.length ≤ 65535) (settled : Settled vdf) :
    ∃ fuel t, planLoop std fuel vdf = .done t := by
  induction missing : 3 - vdf.queuedProofs.length using Nat.strong_induction_on generalizing vdf heads with
  | _ missing ih =>
    obtain ⟨u, turn, ends⟩ := planned.planTurn std sorted small
    have later {n : ℕ} {t : VdfProofs} (run : planTurns std n u = .done t) : planTurns std (n + 1) vdf = .done t := by
      rw [planTurns, turn]
      exact run
    obtain ⟨⟨heads', planned', sorted'⟩, idle | ⟨settled', longer⟩⟩ := ends (room 1 u (later rfl))
    · exact ⟨1, vdf, planLoop_of_not_due idle⟩
    · obtain ⟨few, more⟩ := longer settled
      obtain ⟨fuel, t, rest⟩ := ih _ (by omega) planned' sorted' (fun n t run => room (n + 1) t (later run)) settled'
        rfl
      exact planLoop_of_turn turn rest

/-- The planning loop ends, if the table has room for all that it plans. -/
theorem Planned.planLoop (planned : Planned vdf heads requested) (sorted : QueueSorted vdf)
    (small : ∀ n ∈ requested, n * 92 < 2 ^ 64)
    (room : ∀ n t, planTurns std n vdf = .done t → t.proofs.length ≤ 65535) :
    ∃ fuel t, VdfProofs.planLoop std fuel vdf = .done t := by
  obtain ⟨u, turn, ends⟩ := planned.planTurn std sorted small
  have later {n : ℕ} {t : VdfProofs} (run : planTurns std n u = .done t) : planTurns std (n + 1) vdf = .done t := by
    rw [planTurns, turn]
    exact run
  obtain ⟨⟨heads', planned', sorted'⟩, idle | ⟨settled', -⟩⟩ := ends (room 1 u (later rfl))
  · exact ⟨1, vdf, planLoop_of_not_due idle⟩
  · obtain ⟨fuel, t, rest⟩ := planned'.planLoop_settled sorted' small
      (fun n t run => room (n + 1) t (later run)) settled'
    exact planLoop_of_turn turn rest

end Turn

end VdfProofs

end ChiaVdf
