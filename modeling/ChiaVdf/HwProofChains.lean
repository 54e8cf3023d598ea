import ChiaVdf.HwProofRefs

/-! What holds of the table of proofs, the queue and the pending requests over all runs. -/
namespace ChiaVdf

open PrevChain

namespace VdfProofs

section Append

variable {proofs : List VdfProof} {queued heads : List ℕ} {base : Option ℕ} {i iters depth seg flags pos : ℕ}
  {p new : VdfProof}

/-- A chain of at most `depth` segments that ends after `iters` iterations, and that a request or a
checkpoint can go on from. -/
def EndsAt (proofs : List VdfProof) (iters depth : ℕ) : Option ℕ → Prop
  | none => iters = 0 ∧ depth = 0
  | some b => ∃ q, LiveAt proofs b q ∧ q.has HW_VDF_PROOF_FLAG_IS_REQ = false ∧ q.iters = iters ∧
      (chain (prevOf proofs) b).length ≤ depth

theorem liveAt_append_of_lt (low : i < proofs.length) : LiveAt (proofs ++ [new]) i p ↔ LiveAt proofs i p :=
  ⟨fun ⟨entry, live⟩ => ⟨by rwa [List.getElem?_append_left low] at entry, live⟩,
    fun ⟨entry, live⟩ => ⟨by rwa [List.getElem?_append_left low], live⟩⟩

theorem liveAt_append (live : new.flags ≠ 0xff) :
    LiveAt (proofs ++ [new]) i p ↔ LiveAt proofs i p ∨ i = proofs.length ∧ p = new := by
  by_cases low : i < proofs.length
  · rw [liveAt_append_of_lt low]
    constructor
    · exact .inl
    · rintro (old | ⟨same, -⟩)
      · exact old
      · omega
  · constructor
    · intro at_i
      have bound := at_i.lt
      rw [List.length_append, List.length_singleton] at bound
      have same : i = proofs.length := by omega
      refine .inr ⟨same, ?_⟩
      have entry := at_i.entry
      rw [same, List.getElem?_concat_length] at entry
      exact (Option.some.inj entry).symm
    · rintro (old | ⟨rfl, rfl⟩)
      · exact absurd old.lt low
      · exact ⟨List.getElem?_concat_length, live⟩

theorem prevOf_append_of_lt (low : i < proofs.length) : prevOf (proofs ++ [new]) i = prevOf proofs i := by
  rw [prevOf, prevOf, List.getElem?_append_left low]

theorem prevOf_append_length : prevOf (proofs ++ [new]) proofs.length =
    if new.prev = HW_VDF_PROOF_NONE then none else some new.prev :=
  prevOf_eq List.getElem?_concat_length

theorem descending_append (table : WellFormed proofs)
    (link : ∀ b, prevOf (proofs ++ [new]) proofs.length = some b → b < proofs.length) :
    Descending (prevOf (proofs ++ [new])) := by
  intro i j step
  rcases lt_trichotomy i proofs.length with low | rfl | high
  · rw [prevOf_append_of_lt low] at step
    exact table.descending i j step
  · exact link j step
  · rw [prevOf, List.getElem?_eq_none (by rw [List.length_append, List.length_singleton]; omega)] at step
    cases step

theorem chain_append_of_lt (table : WellFormed proofs) (descending : Descending (prevOf (proofs ++ [new])))
    (low : i < proofs.length) : chain (prevOf (proofs ++ [new])) i = chain (prevOf proofs) i :=
  chain_congr table.descending descending fun _ member =>
    prevOf_append_of_lt ((le_of_mem_chain table.descending member).trans_lt low)

/-- The entry for a segment of `seg` iterations after such a chain. -/
def segmentProof (base : Option ℕ) (iters seg flags : ℕ) : VdfProof :=
  ⟨iters + seg, seg, flags, base.getD HW_VDF_PROOF_NONE, 1⟩

variable (base iters seg) in
theorem segmentProof_has (kind : flags = 0 ∨ flags = HW_VDF_PROOF_FLAG_IS_REQ) :
    (segmentProof base iters seg flags).flags ≠ 0xff ∧
      (segmentProof base iters seg flags).has HW_VDF_PROOF_FLAG_STARTED = false ∧
      ((segmentProof base iters seg flags).has HW_VDF_PROOF_FLAG_IS_REQ = true ↔ flags ≠ 0) := by
  rcases kind with rfl | rfl <;>
    simp [segmentProof, VdfProof.has, HW_VDF_PROOF_FLAG_IS_REQ, HW_VDF_PROOF_FLAG_STARTED]

variable (seg flags) in
theorem prevOf_segmentProof (table : WellFormed proofs) (ends : EndsAt proofs iters depth base) :
    prevOf (proofs ++ [segmentProof base iters seg flags]) proofs.length = base := by
  rw [prevOf_append_length]
  cases base with
  | none => rfl
  | some b =>
    obtain ⟨q, live, -⟩ := ends
    have low := live.lt
    have size := table.size
    have ne : b ≠ HW_VDF_PROOF_NONE := by
      simp only [HW_VDF_PROOF_NONE]
      omega
    rw [segmentProof, Option.getD_some, if_neg ne]

variable (seg flags) in
theorem descending_segmentProof (table : WellFormed proofs) (ends : EndsAt proofs iters depth base) :
    Descending (prevOf (proofs ++ [segmentProof base iters seg flags])) := by
  refine descending_append table fun b link => ?_
  rw [prevOf_segmentProof seg flags table ends] at link
  subst link
  obtain ⟨q, live, -⟩ := ends
  exact live.lt

theorem chain_segmentProof (table : WellFormed proofs) (ends : EndsAt proofs iters depth base) :
    chain (prevOf (proofs ++ [segmentProof base iters seg flags])) proofs.length =
      proofs.length :: (base.toList.flatMap fun b => chain (prevOf proofs) b) := by
  have descending := descending_segmentProof seg flags table ends
  have link := prevOf_segmentProof seg flags table ends
  cases base with
  | none => rw [chain_root link]; rfl
  | some b =>
    obtain ⟨q, live, -⟩ := ends
    rw [chain_step descending link, chain_append_of_lt table descending live.lt]
    simp

theorem length_chain_segmentProof (table : WellFormed proofs) (ends : EndsAt proofs iters depth base) :
    (chain (prevOf (proofs ++ [segmentProof base iters seg flags])) proofs.length).length ≤ depth + 1 := by
  rw [chain_segmentProof table ends]
  cases base with
  | none => simp
  | some b =>
    obtain ⟨q, -, -, -, short⟩ := ends
    simpa using short

theorem WellFormed.push (table : WellFormed proofs) (ends : EndsAt proofs iters depth base)
    (room : proofs.length < 65535) (kind : flags = 0 ∨ flags = HW_VDF_PROOF_FLAG_IS_REQ)
    (positive : base ≠ none → 0 < seg) (multiple : flags = 0 → HW_VDF_VALUE_INTERVAL ∣ iters + seg)
    (short : depth + 1 ≤ if flags = 0 then 63 else 64) :
    WellFormed (proofs ++ [segmentProof base iters seg flags]) := by
  have descending := descending_segmentProof seg flags table ends
  obtain ⟨live, waits, request⟩ := segmentProof_has base iters seg kind
  have link := prevOf_segmentProof seg flags table ends
  exact {
    size := by rw [List.length_append, List.length_singleton]; omega
    erased := by
      intro i p entry dead
      by_cases low : i < proofs.length
      · rw [List.getElem?_append_left low] at entry
        exact table.erased entry dead
      · have bound := (List.getElem?_eq_some_iff.mp entry).1
        rw [List.length_append, List.length_singleton] at bound
        have same : i = proofs.length := by omega
        rw [same, List.getElem?_concat_length] at entry
        obtain rfl := Option.some.inj entry
        exact absurd dead live
    descending := descending
    flags := by
      intro i p at_i
      rcases (liveAt_append live).mp at_i with old | ⟨-, rfl⟩
      · exact table.flags old
      · rcases kind with rfl | rfl <;> simp [segmentProof, HW_VDF_PROOF_FLAG_IS_REQ]
    root := by
      intro i p at_i root
      rcases (liveAt_append live).mp at_i with old | ⟨rfl, rfl⟩
      · exact table.root old ((prevOf_append_of_lt old.lt).symm.trans root)
      · obtain rfl := link.symm.trans root
        rw [segmentProof]
        dsimp only
        rw [ends.1, Nat.zero_add]
    link := by
      intro i j p at_i step
      rcases (liveAt_append live).mp at_i with old | ⟨rfl, rfl⟩
      · obtain ⟨q, at_j, rest⟩ := table.link old ((prevOf_append_of_lt old.lt).symm.trans step)
        exact ⟨q, (liveAt_append live).mpr (.inl at_j), rest⟩
      · obtain rfl := link.symm.trans step
        obtain ⟨q, at_j, chkp, sum, -⟩ := ends
        exact ⟨q, (liveAt_append live).mpr (.inl at_j), chkp, by rw [sum]; rfl, positive (by simp),
          fun started => by simp [waits] at started⟩
    chkp := by
      intro i p at_i chkp
      rcases (liveAt_append live).mp at_i with old | ⟨rfl, rfl⟩
      · exact table.chkp old chkp
      · refine multiple ?_
        by_contra other
        rw [request.mpr other] at chkp
        cases chkp
    depth := by
      intro i p at_i
      rcases (liveAt_append live).mp at_i with old | ⟨rfl, rfl⟩
      · rw [chain_append_of_lt table descending old.lt]
        exact table.depth old
      · refine (length_chain_segmentProof table ends).trans ?_
        by_cases chkp : flags = 0
        · rw [if_pos chkp] at short
          exact short.trans (by split_ifs <;> omega)
        · rw [if_neg chkp] at short
          rw [if_pos (request.mpr chkp)]
          exact short }

/-- Queueing a segment makes it the head of the chain that it goes on from. -/
theorem Counted.push (counted : Counted proofs queued (base.toList ++ heads) [])
    (ends : EndsAt proofs iters depth base) (room : proofs.length < 65535)
    (kind : flags = 0 ∨ flags = HW_VDF_PROOF_FLAG_IS_REQ) (positive : base ≠ none → 0 < seg)
    (multiple : flags = 0 → HW_VDF_VALUE_INTERVAL ∣ iters + seg)
    (short : depth + 1 ≤ if flags = 0 then 63 else 64) :
    Counted (proofs ++ [segmentProof base iters seg flags]) (queued ++ [proofs.length])
      (proofs.length :: heads) [] := by
  have table := counted.table
  have table' := table.push ends room kind positive multiple short
  obtain ⟨live, waits, -⟩ := segmentProof_has base iters seg kind
  have head_lt {h : ℕ} (head : h ∈ heads) : h < proofs.length := by
    obtain ⟨q, at_h⟩ := counted.alive h (List.mem_append_right _ head)
    exact at_h.lt
  have queued_lt {i : ℕ} (member : i ∈ queued) : i < proofs.length := by
    obtain ⟨q, at_i, -⟩ := (counted.queue i).mp member
    exact at_i.lt
  have old_refs (i : ℕ) : refs (prevOf (proofs ++ [segmentProof base iters seg flags])) heads i =
      refs (prevOf proofs) heads i :=
    refs_congr fun h head => chain_append_of_lt table table'.descending (head_lt head)
  have refs_lt {i : ℕ} (low : i < proofs.length) :
      refs (prevOf (proofs ++ [segmentProof base iters seg flags])) (proofs.length :: heads) i =
        refs (prevOf proofs) (base.toList ++ heads) i := by
    have other : i ≠ proofs.length := low.ne
    rw [refs_cons, old_refs, chain_segmentProof table ends]
    cases base with
    | none => simp [other]
    | some b => simp [other]
  have refs_length :
      refs (prevOf (proofs ++ [segmentProof base iters seg flags])) (proofs.length :: heads) proofs.length = 1 := by
    have fresh : refs (prevOf proofs) heads proofs.length = 0 := by
      by_contra used
      obtain ⟨h, head, reach⟩ := refs_pos.mp (Nat.pos_of_ne_zero used)
      have low := head_lt head
      have le := le_of_mem_chain table.descending reach
      omega
    rw [refs_cons, old_refs, fresh, if_pos mem_chain_self]
  exact {
    table := table'
    queue := by
      intro i
      rw [List.mem_append, List.mem_singleton, counted.queue]
      constructor
      · rintro (⟨p, at_i, idle⟩ | rfl)
        · exact ⟨p, (liveAt_append live).mpr (.inl at_i), idle⟩
        · exact ⟨_, (liveAt_append live).mpr (.inr ⟨rfl, rfl⟩), waits⟩
      · rintro ⟨p, at_i, idle⟩
        rcases (liveAt_append live).mp at_i with old | ⟨same, -⟩
        · exact .inl ⟨p, old, idle⟩
        · exact .inr same
    nodup := by
      refine List.nodup_append.mpr ⟨counted.nodup, List.nodup_singleton _, ?_⟩
      rintro i member j last rfl
      have low := queued_lt member
      have same := List.mem_singleton.mp last
      omega
    alive := by
      intro h head
      rcases List.mem_cons.mp head with rfl | old
      · exact ⟨_, (liveAt_append live).mpr (.inr ⟨rfl, rfl⟩)⟩
      · obtain ⟨q, at_h⟩ := counted.alive h (List.mem_append_right _ old)
        exact ⟨q, (liveAt_append live).mpr (.inl at_h)⟩
    counts := by
      intro i p member entry
      rcases List.mem_append.mp member with old | last
      · have low := queued_lt old
        rw [refs_lt low]
        exact counted.counts old ((List.getElem?_append_left low).symm.trans entry)
      · obtain rfl := List.mem_singleton.mp last
        rw [List.getElem?_concat_length] at entry
        obtain rfl := Option.some.inj entry
        exact refs_length.symm
    unused := by
      intro i member
      rcases List.mem_append.mp member with old | last
      · rw [refs_lt (queued_lt old)]
        exact counted.unused i old
      · obtain rfl := List.mem_singleton.mp last
        simp [refs_length]
    deletes := by simp
    once := List.nodup_nil }

end Append

section Segments

variable {vdf u t : VdfProofs} {heads : List ℕ} {base : Option ℕ} {iters depth seg flags pos n bound : ℕ}

/-- The chain that ends at `base` is being continued; it counts as a head. -/
structure Building (vdf : VdfProofs) (heads : List ℕ) (base : Option ℕ) (iters depth : ℕ) : Prop where
  counted : Counted vdf.proofs vdf.queuedProofs (base.toList ++ heads) []
  ends : EndsAt vdf.proofs iters depth base

/-- Only checkpoints up to `bound` were added. -/
structure Grown (vdf u : VdfProofs) (bound : ℕ) : Prop where
  old : ∀ {i : ℕ} {q : VdfProof}, LiveAt vdf.proofs i q → LiveAt u.proofs i q
  new : ∀ {i : ℕ} {q : VdfProof}, LiveAt u.proofs i q →
    LiveAt vdf.proofs i q ∨ q.has HW_VDF_PROOF_FLAG_IS_REQ = false ∧ q.iters ≤ bound
  reqs : u.reqProofs = vdf.reqProofs
  longer : vdf.queuedProofs.length ≤ u.queuedProofs.length
  size : vdf.proofs.length ≤ u.proofs.length

theorem Grown.refl (vdf : VdfProofs) (bound : ℕ) : Grown vdf vdf bound :=
  ⟨id, .inl, rfl, le_rfl, le_rfl⟩

theorem Grown.trans {m : ℕ} (first : Grown vdf u m) (second : Grown u t n) (le : m ≤ n) : Grown vdf t n where
  old live := second.old (first.old live)
  new := by
    intro i q live
    rcases second.new live with mid | new
    · rcases first.new mid with old | ⟨chkp, small⟩
      · exact .inl old
      · exact .inr ⟨chkp, small.trans le⟩
    · exact .inr new
  reqs := second.reqs.trans first.reqs
  longer := first.longer.trans second.longer
  size := first.size.trans second.size

/-- The request is planned: `r` is its entry. -/
structure Placed (vdf t : VdfProofs) (heads : List ℕ) (r n : ℕ) : Prop where
  counted : Counted t.proofs t.queuedProofs (r :: heads) []
  request : ∃ p, LiveAt t.proofs r p ∧ p.has HW_VDF_PROOF_FLAG_IS_REQ = true ∧ p.iters = n
  fresh : vdf.proofs.length ≤ r
  old : ∀ {i : ℕ} {q : VdfProof}, LiveAt vdf.proofs i q → LiveAt t.proofs i q
  new : ∀ {i : ℕ} {q : VdfProof}, LiveAt t.proofs i q →
    LiveAt vdf.proofs i q ∨ i = r ∨ q.has HW_VDF_PROOF_FLAG_IS_REQ = false ∧ q.iters ≤ n
  reqs : t.reqProofs = vdf.reqProofs
  longer : vdf.queuedProofs.length < t.queuedProofs.length

theorem Placed.after (grown : Grown vdf u bound) (le : bound ≤ n) {r : ℕ} (placed : Placed u t heads r n) :
    Placed vdf t heads r n where
  counted := placed.counted
  request := placed.request
  fresh := grown.size.trans placed.fresh
  old live := placed.old (grown.old live)
  new := by
    intro i q live
    rcases placed.new live with mid | here | new
    · rcases grown.new mid with old | ⟨chkp, small⟩
      · exact .inl old
      · exact .inr (.inr ⟨chkp, small.trans le⟩)
    · exact .inr (.inl here)
    · exact .inr (.inr new)
  reqs := placed.reqs.trans grown.reqs
  longer := grown.longer.trans_lt placed.longer

theorem queueProof_size (run : vdf.queueProof seg pos flags = .done (u, n)) :
    u.proofs.length = vdf.proofs.length + 1 := by
  obtain ⟨iters, -, last⟩ := Exec.bind_eq_done.mp run
  obtain ⟨rfl, -⟩ := Prod.mk.inj (Exec.done.inj last)
  rw [List.length_append, List.length_singleton]

theorem Building.queueProof (building : Building vdf heads base iters depth)
    (room : vdf.proofs.length < 65535) (word : iters + seg < 2 ^ 64) :
    vdf.queueProof seg (base.getD HW_VDF_PROOF_NONE) flags = .done ({ vdf with
      proofs := vdf.proofs ++ [segmentProof base iters seg flags]
      queuedProofs := vdf.queuedProofs ++ [vdf.proofs.length] }, vdf.proofs.length) := by
  have ends : segmentEnd vdf.proofs seg (base.getD HW_VDF_PROOF_NONE) = .done (iters + seg) := by
    have at_base := building.ends
    cases base with
    | none =>
      obtain ⟨rfl, -⟩ := at_base
      rw [segmentEnd, Option.getD_none, if_pos rfl, Nat.zero_add]
    | some b =>
      obtain ⟨q, live, -, sum, -⟩ := at_base
      have ne : b ≠ HW_VDF_PROOF_NONE := by
        have low := live.lt
        simp only [HW_VDF_PROOF_NONE]
        omega
      rw [segmentEnd, Option.getD_some, if_neg ne, proofAt_eq live.entry, Exec.done_bind, sum, Exec.pure_eq,
        Nat.add_comm, Nat.mod_eq_of_lt word]
  have index : vdf.proofs.length % 2 ^ 16 = vdf.proofs.length := Nat.mod_eq_of_lt (by omega)
  rw [VdfProofs.queueProof, ends, Exec.done_bind, index]
  rfl

theorem Building.chkp (building : Building vdf heads base iters depth)
    (run : vdf.queueProof seg (base.getD HW_VDF_PROOF_NONE) 0 = .done (u, pos))
    (room : u.proofs.length ≤ 65535) (positive : 0 < seg)
    (multiple : HW_VDF_VALUE_INTERVAL ∣ iters + seg) (word : iters + seg < 2 ^ 64) (short : depth + 1 ≤ 63) :
    Building u heads (some pos) (iters + seg) (depth + 1) ∧ Grown vdf u (iters + seg) := by
  have room' : vdf.proofs.length < 65535 := by
    have size := queueProof_size run
    omega
  rw [building.queueProof room' word] at run
  obtain ⟨rfl, rfl⟩ := Prod.mk.inj (Exec.done.inj run)
  obtain ⟨live, -, request⟩ := segmentProof_has base iters seg (.inl rfl)
  have chkp : (segmentProof base iters seg 0).has HW_VDF_PROOF_FLAG_IS_REQ = false := by simpa using request
  constructor
  · exact {
      counted := building.counted.push building.ends room' (.inl rfl) (fun _ => positive) (fun _ => multiple)
        (by simpa using short)
      ends := ⟨_, (liveAt_append live).mpr (.inr ⟨rfl, rfl⟩), chkp, rfl,
        length_chain_segmentProof building.counted.table building.ends⟩ }
  · exact {
      old := fun at_i => (liveAt_append live).mpr (.inl at_i)
      new := by
        intro i q at_i
        rcases (liveAt_append live).mp at_i with old | ⟨-, rfl⟩
        · exact .inl old
        · exact .inr ⟨chkp, le_rfl⟩
      reqs := rfl
      longer := by simp
      size := by simp }

theorem Building.req (building : Building vdf heads base iters depth)
    (run : vdf.queueReq seg (base.getD HW_VDF_PROOF_NONE) = .done t) (room : t.proofs.length ≤ 65535)
    (positive : base ≠ none → 0 < seg) (word : iters + seg < 2 ^ 64) (short : depth ≤ 63) :
    Placed vdf t heads vdf.proofs.length (iters + seg) := by
  obtain ⟨⟨u, pos⟩, queue, last⟩ := Exec.bind_eq_done.mp run
  obtain rfl := Exec.done.inj last
  have room' : vdf.proofs.length < 65535 := by
    have size := queueProof_size queue
    omega
  rw [building.queueProof room' word] at queue
  obtain ⟨rfl, rfl⟩ := Prod.mk.inj (Exec.done.inj queue)
  obtain ⟨live, -, request⟩ := segmentProof_has base iters seg (.inr rfl)
  exact {
    counted := building.counted.push building.ends room' (.inr rfl) positive (fun none => absurd none (by decide))
      (by simp [HW_VDF_PROOF_FLAG_IS_REQ]; omega)
    request := ⟨_, (liveAt_append live).mpr (.inr ⟨rfl, rfl⟩), request.mpr (by decide), rfl⟩
    fresh := le_rfl
    old := fun at_i => (liveAt_append live).mpr (.inl at_i)
    new := by
      intro i q at_i
      rcases (liveAt_append live).mp at_i with old | ⟨rfl, -⟩
      · exact .inl old
      · exact .inr (.inl rfl)
    reqs := rfl
    longer := by simp }

theorem sub64_eq {a b : ℕ} (le : b ≤ a) (word : a < 2 ^ 64) : sub64 a b = a - b := by
  unfold sub64
  omega

theorem queueReq_size (run : vdf.queueReq seg pos = .done t) : t.proofs.length = vdf.proofs.length + 1 := by
  obtain ⟨⟨u, n⟩, queue, last⟩ := Exec.bind_eq_done.mp run
  obtain rfl := Exec.done.inj last
  exact queueProof_size queue

theorem queueChkp_size {a b : ℕ} (run : vdf.queueChkp a b pos = .done t) :
    t.proofs.length = vdf.proofs.length + 2 := by
  obtain ⟨⟨u, n⟩, queue, rest⟩ := Exec.bind_eq_done.mp run
  rw [queueReq_size rest, queueProof_size queue]

/-- A checkpoint and the request behind it. -/
theorem Building.queueChkp (building : Building vdf heads base iters depth) {chkp : ℕ}
    (run : vdf.queueChkp chkp n (base.getD HW_VDF_PROOF_NONE) = .done t) (room : t.proofs.length ≤ 65535)
    (multiple : HW_VDF_VALUE_INTERVAL ∣ iters) (large : HW_VDF_VALUE_INTERVAL ≤ chkp) (before : chkp < n)
    (word : iters + n < 2 ^ 64) (short : depth ≤ 62) : ∃ r, Placed vdf t heads r (iters + n) := by
  obtain ⟨⟨u, pos⟩, queue, rest⟩ := Exec.bind_eq_done.mp run
  have le : chkp / HW_VDF_VALUE_INTERVAL * HW_VDF_VALUE_INTERVAL ≤ chkp := Nat.div_mul_le_self ..
  have positive : 0 < chkp / HW_VDF_VALUE_INTERVAL * HW_VDF_VALUE_INTERVAL :=
    Nat.mul_pos (Nat.div_pos large (by decide)) (by decide)
  rw [sub64_eq (by omega) (by omega)] at rest
  obtain ⟨building', grown⟩ := building.chkp queue (by rw [queueReq_size rest] at room; omega)
    positive (multiple.add (Nat.dvd_mul_left _ _)) (by omega) (by omega)
  have placed := building'.req rest room (fun _ => by omega) (by omega) (by omega)
  have total : iters + chkp / HW_VDF_VALUE_INTERVAL * HW_VDF_VALUE_INTERVAL +
      (n - chkp / HW_VDF_VALUE_INTERVAL * HW_VDF_VALUE_INTERVAL) = iters + n := by omega
  rw [total] at placed
  exact ⟨_, placed.after grown (by omega)⟩

/-- However a request is split, its entry comes last and all before it are checkpoints. -/
theorem Building.queueSegments (building : Building vdf heads base iters depth)
    (run : vdf.queueSegments n (base.getD HW_VDF_PROOF_NONE) = .done t) (room : t.proofs.length ≤ 65535)
    (multiple : HW_VDF_VALUE_INTERVAL ∣ iters) (positive : base ≠ none → 0 < n) (small : n * 92 < 2 ^ 64)
    (word : iters + n < 2 ^ 64) (short : depth ≤ maxChkpSegments) : ∃ r, Placed vdf t heads r (iters + n) := by
  have few : depth ≤ 61 := short
  have interval : HW_VDF_VALUE_INTERVAL = 4000 := rfl
  unfold VdfProofs.queueSegments at run
  dsimp only at run
  split at run
  · next large =>
    have large' : 1000000 < n := large
    rw [Nat.mod_eq_of_lt (show n * 3 < 2 ^ 64 by omega), sub64_eq (by omega) (by omega)] at run
    split at run
    · next split =>
      have split' : 1000000 < n - n * 3 / 4 := split
      rw [Nat.mod_eq_of_lt (show n * 69 < 2 ^ 64 by omega), Nat.mod_eq_of_lt small] at run
      obtain ⟨⟨u, pos⟩, queue, rest⟩ := Exec.bind_eq_done.mp run
      dsimp only at rest
      have size := queueChkp_size rest
      have le : n * 69 / 100 / HW_VDF_VALUE_INTERVAL * HW_VDF_VALUE_INTERVAL ≤ n * 69 / 100 :=
        Nat.div_mul_le_self ..
      have chkpPos : 0 < n * 69 / 100 / HW_VDF_VALUE_INTERVAL * HW_VDF_VALUE_INTERVAL :=
        Nat.mul_pos (Nat.div_pos (by omega) (by decide)) (by decide)
      obtain ⟨building', grown⟩ := building.chkp queue (by omega) chkpPos
        (multiple.add (Nat.dvd_mul_left _ _)) (by omega) (by omega)
      rw [sub64_eq (by omega) (by omega), sub64_eq (by omega) (by omega)] at rest
      obtain ⟨r, placed⟩ := building'.queueChkp rest room
        (multiple.add (Nat.dvd_mul_left _ _)) (by omega) (by omega) (by omega) (by omega)
      have total : iters + n * 69 / 100 / HW_VDF_VALUE_INTERVAL * HW_VDF_VALUE_INTERVAL +
          (n - n * 69 / 100 / HW_VDF_VALUE_INTERVAL * HW_VDF_VALUE_INTERVAL) = iters + n := by omega
      rw [total] at placed
      exact ⟨r, placed.after grown (by omega)⟩
    · exact building.queueChkp run room multiple (by omega) (by omega) word (by omega)
  · exact ⟨_, building.req run room positive word (by omega)⟩

end Segments

end VdfProofs

end ChiaVdf
