import Mathlib.Data.List.TakeWhile
import ChiaVdf.HwProofPlan

/-! The table of proofs as chains of links, and the reference counts of the entries that wait in the queue:
each is the number of heads that reach the entry. A request that is being planned or torn down is a head
of its own, so that the counts can be followed through every loop. -/
namespace ChiaVdf

open PrevChain

namespace VdfProofs

/-- The entry before `i` in its chain. -/
def prevOf (proofs : List VdfProof) (i : ℕ) : Option ℕ :=
  match proofs[i]? with
  | some proof => if proof.prev = HW_VDF_PROOF_NONE then none else some proof.prev
  | none => none

/-- An entry that is not deleted. -/
structure LiveAt (proofs : List VdfProof) (i : ℕ) (proof : VdfProof) : Prop where
  entry : proofs[i]? = some proof
  live : proof.flags ≠ 0xff

/-- The entries that are not deleted form chains. -/
structure WellFormed (proofs : List VdfProof) : Prop where
  size : proofs.length ≤ 65535
  erased : ∀ {i : ℕ} {p : VdfProof}, proofs[i]? = some p → p.flags = 0xff → p = .erased
  descending : Descending (prevOf proofs)
  flags : ∀ {i : ℕ} {p : VdfProof}, LiveAt proofs i p → p.flags < 8
  root : ∀ {i : ℕ} {p : VdfProof}, LiveAt proofs i p → prevOf proofs i = none → p.iters = p.segIters
  link : ∀ {i j : ℕ} {p : VdfProof}, LiveAt proofs i p → prevOf proofs i = some j →
    ∃ q, LiveAt proofs j q ∧ q.has HW_VDF_PROOF_FLAG_IS_REQ = false ∧ p.iters = q.iters + p.segIters ∧
      0 < p.segIters ∧ (p.has HW_VDF_PROOF_FLAG_STARTED = true → q.has HW_VDF_PROOF_FLAG_STARTED = true)
  chkp : ∀ {i : ℕ} {p : VdfProof}, LiveAt proofs i p → p.has HW_VDF_PROOF_FLAG_IS_REQ = false →
    HW_VDF_VALUE_INTERVAL ∣ p.iters
  depth : ∀ {i : ℕ} {p : VdfProof}, LiveAt proofs i p →
    (chain (prevOf proofs) i).length ≤ if p.has HW_VDF_PROOF_FLAG_IS_REQ then 64 else 63

/-- The queue holds the entries that are not started; each of them counts the heads that reach it, and
those that none reaches are up for deletion. -/
structure Counted (proofs : List VdfProof) (queued heads toDel : List ℕ) : Prop where
  table : WellFormed proofs
  queue : ∀ i, i ∈ queued ↔ ∃ p, LiveAt proofs i p ∧ p.has HW_VDF_PROOF_FLAG_STARTED = false
  nodup : queued.Nodup
  alive : ∀ h ∈ heads, ∃ p, LiveAt proofs h p
  counts : ∀ {i : ℕ} {p : VdfProof}, i ∈ queued → proofs[i]? = some p →
    p.refCnt = refs (prevOf proofs) heads i
  unused : ∀ i ∈ queued, refs (prevOf proofs) heads i = 0 ↔ i ∈ toDel
  deletes : ∀ i ∈ toDel, i ∈ queued
  once : toDel.Nodup

section Table

variable {proofs : List VdfProof} {i j idx : ℕ} {p q : VdfProof}

theorem proofAt_eq (entry : proofs[i]? = some p) : proofAt proofs i = .done p := by rw [proofAt, entry]

theorem LiveAt.unique (live : LiveAt proofs i p) (live' : LiveAt proofs i q) : p = q :=
  Option.some.inj (live.entry.symm.trans live'.entry)

theorem LiveAt.lt (live : LiveAt proofs i p) : i < proofs.length :=
  (List.getElem?_eq_some_iff.mp live.entry).1

theorem prevOf_eq (entry : proofs[i]? = some p) :
    prevOf proofs i = if p.prev = HW_VDF_PROOF_NONE then none else some p.prev := by
  rw [prevOf, entry]

theorem prevOf_eq_none (entry : proofs[i]? = some p) : prevOf proofs i = none ↔ p.prev = HW_VDF_PROOF_NONE := by
  rw [prevOf_eq entry]
  split_ifs with root <;> simp [root]

theorem prevOf_eq_some (entry : proofs[i]? = some p) :
    prevOf proofs i = some j ↔ p.prev = j ∧ p.prev ≠ HW_VDF_PROOF_NONE := by
  rw [prevOf_eq entry]
  split_ifs with root <;> simp [root]

theorem WellFormed.live_of_mem (table : WellFormed proofs) (live : LiveAt proofs i p)
    (member : j ∈ chain (prevOf proofs) i) : ∃ q, LiveAt proofs j q := by
  refine forall_mem_chain (P := fun j => ∃ q, LiveAt proofs j q) table.descending ?_ ⟨p, live⟩ member
  rintro k l ⟨q, at_k⟩ link
  obtain ⟨r, at_l, -⟩ := table.link at_k link
  exact ⟨r, at_l⟩

theorem WellFormed.started_of_mem (table : WellFormed proofs) (live : LiveAt proofs i p)
    (started : p.has HW_VDF_PROOF_FLAG_STARTED = true) (member : j ∈ chain (prevOf proofs) i)
    (live' : LiveAt proofs j q) : q.has HW_VDF_PROOF_FLAG_STARTED = true := by
  have all := forall_mem_chain (P := fun j => ∃ q, LiveAt proofs j q ∧ q.has HW_VDF_PROOF_FLAG_STARTED = true)
    table.descending ?_ ⟨p, live, started⟩ member
  · obtain ⟨r, at_j, has⟩ := all
    exact live'.unique at_j ▸ has
  · rintro k l ⟨q, at_k, has⟩ link
    obtain ⟨r, at_l, -, -, -, on⟩ := table.link at_k link
    exact ⟨r, at_l, on has⟩

theorem WellFormed.iters_lt_of_mem (table : WellFormed proofs) (live : LiveAt proofs i p)
    (member : j ∈ chain (prevOf proofs) i) (ne : j ≠ i) (live' : LiveAt proofs j q) : q.iters < p.iters := by
  have le : ∀ {k l : ℕ} {r t : VdfProof}, LiveAt proofs k r → l ∈ chain (prevOf proofs) k →
      LiveAt proofs l t → t.iters ≤ r.iters := by
    intro k l r t at_k mem at_l
    have all := forall_mem_chain (P := fun l => ∃ t, LiveAt proofs l t ∧ t.iters ≤ r.iters) table.descending
      ?_ ⟨r, at_k, le_rfl⟩ mem
    · obtain ⟨u, at_l', le⟩ := all
      exact at_l.unique at_l' ▸ le
    · rintro m n ⟨u, at_m, le⟩ link
      obtain ⟨v, at_n, -, sum, -⟩ := table.link at_m link
      exact ⟨v, at_n, by omega⟩
  cases link : prevOf proofs i with
  | none => exact absurd ((mem_chain_root link).mp member) ne
  | some k =>
    obtain ⟨r, at_k, -, sum, positive, -⟩ := table.link live link
    rcases (mem_chain_step table.descending link).mp member with same | later
    · exact absurd same ne
    · have := le at_k later live'
      omega

/-- Only the head of a chain can be a request. -/
theorem WellFormed.chkp_of_mem (table : WellFormed proofs) (live : LiveAt proofs i p)
    (member : j ∈ chain (prevOf proofs) i) (ne : j ≠ i) (live' : LiveAt proofs j q) :
    q.has HW_VDF_PROOF_FLAG_IS_REQ = false := by
  cases link : prevOf proofs i with
  | none => exact absurd ((mem_chain_root link).mp member) ne
  | some k =>
    obtain ⟨r, at_k, chkp, -⟩ := table.link live link
    rcases (mem_chain_step table.descending link).mp member with same | later
    · exact absurd same ne
    · have all := forall_mem_chain
        (P := fun j => ∃ q, LiveAt proofs j q ∧ q.has HW_VDF_PROOF_FLAG_IS_REQ = false) table.descending ?_
        ⟨r, at_k, chkp⟩ later
      · obtain ⟨u, at_j, chkp'⟩ := all
        exact live'.unique at_j ▸ chkp'
      · rintro m n ⟨u, at_m, -⟩ link'
        obtain ⟨v, at_n, chkp', -⟩ := table.link at_m link'
        exact ⟨v, at_n, chkp'⟩

end Table

section Touch

/-- The entries at `idxs`, changed by `f`. -/
def touch (f : VdfProof → VdfProof) (idxs : List ℕ) (proofs : List VdfProof) : List VdfProof :=
  proofs.mapIdx fun i p => if i ∈ idxs then f p else p

variable {proofs : List VdfProof} {f : VdfProof → VdfProof} {idxs : List ℕ} {i idx : ℕ} {p : VdfProof}

@[simp] theorem length_touch : (touch f idxs proofs).length = proofs.length := by simp [touch]

theorem touch_getElem? : (touch f idxs proofs)[i]? =
    (proofs[i]?).map fun p => if i ∈ idxs then f p else p := by simp [touch]

theorem touch_nil : touch f [] proofs = proofs := by
  refine List.ext_getElem? fun i => ?_
  rw [touch_getElem?]
  cases proofs[i]? <;> simp

theorem touch_set (entry : proofs[idx]? = some p) (fresh : idx ∉ idxs) :
    touch f idxs (proofs.set idx (f p)) = touch f (idx :: idxs) proofs := by
  refine List.ext_getElem? fun i => ?_
  rw [touch_getElem?, touch_getElem?, List.getElem?_set]
  by_cases same : idx = i
  · subst same
    obtain ⟨inside, rfl⟩ := List.getElem?_eq_some_iff.mp entry
    simp [fresh, inside]
  · have other : i ≠ idx := fun eq => same eq.symm
    simp [same, other]

/-- A change of the counters alone. -/
structure Counter (f : VdfProof → VdfProof) : Prop where
  iters : ∀ p, (f p).iters = p.iters
  segIters : ∀ p, (f p).segIters = p.segIters
  flags : ∀ p, (f p).flags = p.flags
  prev : ∀ p, (f p).prev = p.prev

theorem Counter.ite (counter : Counter f) {i : ℕ} {idxs : List ℕ} :
    Counter fun p => if i ∈ idxs then f p else p := by
  by_cases member : i ∈ idxs
  · simpa [member] using counter
  · simp only [member, if_false]
    exact ⟨fun _ => rfl, fun _ => rfl, fun _ => rfl, fun _ => rfl⟩

theorem Counter.has (counter : Counter f) (p : VdfProof) (flag : ℕ) : (f p).has flag = p.has flag := by
  rw [VdfProof.has, VdfProof.has, counter.flags]

theorem prevOf_touch (counter : Counter f) : prevOf (touch f idxs proofs) = prevOf proofs := by
  funext i
  rw [prevOf, prevOf, touch_getElem?]
  cases proofs[i]? with
  | none => rfl
  | some p =>
    dsimp only [Option.map_some]
    split_ifs with member <;> simp_all [counter.prev]

theorem liveAt_touch {q : VdfProof} (counter : Counter f) :
    LiveAt (touch f idxs proofs) i q ↔ ∃ p, LiveAt proofs i p ∧ q = if i ∈ idxs then f p else p := by
  constructor
  · rintro ⟨entry, live⟩
    rw [touch_getElem?] at entry
    obtain ⟨p, at_i, rfl⟩ := Option.map_eq_some_iff.mp entry
    exact ⟨p, ⟨at_i, by rwa [(@Counter.ite f counter i idxs).flags p] at live⟩, rfl⟩
  · rintro ⟨p, ⟨entry, live⟩, rfl⟩
    refine ⟨by rw [touch_getElem?, entry]; rfl, ?_⟩
    rwa [(@Counter.ite f counter i idxs).flags p]

/-- The entries that are live in the end were there before, up to their links and counters. -/
def Agrees (proofs proofs' : List VdfProof) : Prop := ∀ {i : ℕ} {q' : VdfProof}, LiveAt proofs' i q' →
  ∃ q, LiveAt proofs i q ∧ q'.iters = q.iters ∧ q'.flags = q.flags

theorem Agrees.trans {proofs' proofs'' : List VdfProof} (first : Agrees proofs proofs')
    (second : Agrees proofs' proofs'') : Agrees proofs proofs'' := by
  intro i q'' live''
  obtain ⟨q', live', iters', flags'⟩ := second live''
  obtain ⟨q, live, iters, flags⟩ := first live'
  exact ⟨q, live, iters'.trans iters, flags'.trans flags⟩

theorem agrees_touch (counter : Counter f) : Agrees proofs (touch f idxs proofs) := by
  intro i q' live'
  obtain ⟨q, live, rfl⟩ := (liveAt_touch counter).mp live'
  exact ⟨q, live, counter.ite.iters q, counter.ite.flags q⟩

theorem WellFormed.touch (table : WellFormed proofs) (counter : Counter f)
    (spare : ∀ i ∈ idxs, ∃ p, LiveAt proofs i p) : WellFormed (touch f idxs proofs) where
  size := by rw [length_touch]; exact table.size
  erased := by
    intro i p entry dead
    rw [touch_getElem?] at entry
    obtain ⟨q, at_i, rfl⟩ := Option.map_eq_some_iff.mp entry
    by_cases member : i ∈ idxs
    · obtain ⟨r, live⟩ := spare i member
      obtain rfl := Option.some.inj (at_i.symm.trans live.entry)
      rw [if_pos member, counter.flags] at dead
      exact absurd dead live.live
    · rw [if_neg member] at dead ⊢
      exact table.erased at_i dead
  descending := by rw [prevOf_touch counter]; exact table.descending
  flags := by
    intro i p live
    obtain ⟨q, at_i, rfl⟩ := (liveAt_touch counter).mp live
    rw [counter.ite.flags]
    exact table.flags at_i
  root := by
    intro i p live link
    obtain ⟨q, at_i, rfl⟩ := (liveAt_touch counter).mp live
    rw [prevOf_touch counter] at link
    rw [counter.ite.iters, counter.ite.segIters]
    exact table.root at_i link
  link := by
    intro i j p live link
    obtain ⟨q, at_i, rfl⟩ := (liveAt_touch counter).mp live
    rw [prevOf_touch counter] at link
    obtain ⟨r, at_j, chkp, sum, positive, started⟩ := table.link at_i link
    refine ⟨_, (liveAt_touch counter).mpr ⟨r, at_j, rfl⟩, ?_⟩
    rw [counter.ite.has, counter.ite.has, counter.ite.has, counter.ite.iters, counter.ite.iters,
      counter.ite.segIters]
    exact ⟨chkp, sum, positive, started⟩
  chkp := by
    intro i p live chkp
    obtain ⟨q, at_i, rfl⟩ := (liveAt_touch counter).mp live
    rw [counter.ite.has] at chkp
    rw [counter.ite.iters]
    exact table.chkp at_i chkp
  depth := by
    intro i p live
    obtain ⟨q, at_i, rfl⟩ := (liveAt_touch counter).mp live
    rw [prevOf_touch counter, counter.ite.has]
    exact table.depth at_i

end Touch

section IncRef

variable {proofs : List VdfProof} {queued heads toDel : List ℕ} {idx : ℕ} {p : VdfProof}

theorem incRefCnt_counter : Counter VdfProof.incRefCnt := ⟨fun _ => rfl, fun _ => rfl, fun _ => rfl, fun _ => rfl⟩

theorem prevOf_set {q : VdfProof} (entry : proofs[idx]? = some p) (same : q.prev = p.prev) :
    prevOf (proofs.set idx q) = prevOf proofs := by
  funext i
  by_cases eq : idx = i
  · subst eq
    obtain ⟨inside, rfl⟩ := List.getElem?_eq_some_iff.mp entry
    simp [prevOf, inside, same]
  · simp [prevOf, List.getElem?_set_ne eq]

theorem incRef_eq {prev : ℕ → Option ℕ} (descending : Descending prev) {fuel : ℕ} (links : prevOf proofs = prev)
    (enough : idx < fuel) (inside : ∀ j ∈ chain prev idx, j < proofs.length) :
    incRef fuel proofs idx = .done (touch VdfProof.incRefCnt (chain prev idx) proofs) := by
  induction idx using link_induction descending generalizing fuel proofs with
  | root idx root =>
    obtain ⟨fuel, rfl⟩ : ∃ n, fuel = n + 1 := ⟨fuel - 1, by omega⟩
    have entry := List.getElem?_eq_getElem (inside idx mem_chain_self)
    have last := (prevOf_eq_none entry).mp (links ▸ root)
    rw [incRef, proofAt_eq entry, Exec.done_bind, if_pos last, chain_root root,
      ← touch_set entry List.not_mem_nil, touch_nil]
  | step idx j link ih =>
    obtain ⟨fuel, rfl⟩ : ∃ n, fuel = n + 1 := ⟨fuel - 1, by omega⟩
    obtain ⟨q, entry⟩ : ∃ q, proofs[idx]? = some q := ⟨_, List.getElem?_eq_getElem (inside idx mem_chain_self)⟩
    obtain ⟨rfl, more⟩ := (prevOf_eq_some entry).mp (links ▸ link)
    have below := descending idx _ link
    have fresh : idx ∉ chain prev q.prev :=
      fun member => absurd (le_of_mem_chain descending member) (by omega)
    rw [incRef, proofAt_eq entry, Exec.done_bind, if_neg more, chain_step descending link,
      ← touch_set entry fresh]
    have same : prevOf (proofs.set idx q.incRefCnt) = prevOf proofs := prevOf_set entry rfl
    refine ih (same.trans links) (by omega) fun k member => ?_
    rw [List.length_set]
    exact inside k ((mem_chain_step descending link).mpr (.inr member))

/-- `hw_proof_inc_ref` makes an entry of the queue a head. -/
theorem Counted.incRef (counted : Counted proofs queued heads []) (live : LiveAt proofs idx p)
    (room : heads.length < 2 ^ 16 - 1) : ∃ proofs', incRef proofs.length proofs idx = .done proofs' ∧
      Counted proofs' queued (idx :: heads) [] ∧ prevOf proofs' = prevOf proofs ∧
      proofs'.length = proofs.length ∧
      Agrees proofs proofs' := by
  have table := counted.table
  have spare : ∀ j ∈ chain (prevOf proofs) idx, ∃ q, LiveAt proofs j q := fun j => table.live_of_mem live
  have inside : ∀ j ∈ chain (prevOf proofs) idx, j < proofs.length := by
    intro j member
    obtain ⟨q, at_j⟩ := spare j member
    exact at_j.lt
  refine ⟨_, incRef_eq table.descending rfl live.lt inside, ?_, prevOf_touch incRefCnt_counter, length_touch, ?_⟩
  · exact {
      table := table.touch incRefCnt_counter spare
      queue := by
        intro i
        rw [counted.queue]
        constructor
        · rintro ⟨q, at_i, waiting⟩
          exact ⟨_, (liveAt_touch incRefCnt_counter).mpr ⟨q, at_i, rfl⟩, (incRefCnt_counter.ite.has q _).trans waiting⟩
        · rintro ⟨q', at_i', waiting⟩
          obtain ⟨q, at_i, rfl⟩ := (liveAt_touch incRefCnt_counter).mp at_i'
          exact ⟨q, at_i, (incRefCnt_counter.ite.has q _).symm.trans waiting⟩
      nodup := counted.nodup
      alive := by
        have alive (i : ℕ) : (∃ q, LiveAt proofs i q) →
            ∃ q, LiveAt (touch VdfProof.incRefCnt (chain (prevOf proofs) idx) proofs) i q :=
          fun ⟨q, at_i⟩ => ⟨_, (liveAt_touch incRefCnt_counter).mpr ⟨q, at_i, rfl⟩⟩
        intro h member
        rcases List.mem_cons.mp member with rfl | old
        · exact alive h ⟨p, live⟩
        · exact alive h (counted.alive h old)
      counts := by
        intro i q member entry
        rw [touch_getElem?] at entry
        obtain ⟨r, at_i, rfl⟩ := Option.map_eq_some_iff.mp entry
        have count := counted.counts member at_i
        have le : refs (prevOf proofs) heads i ≤ heads.length := refs_le
        rw [prevOf_touch incRefCnt_counter, refs_cons]
        split_ifs
        · change (r.refCnt + 1) % 2 ^ 16 = _
          rw [count, Nat.mod_eq_of_lt (by omega)]
        · rw [count]
          rfl
      unused := by
        intro i member
        have used : refs (prevOf proofs) heads i ≠ 0 := by simpa using (counted.unused i member).not
        rw [prevOf_touch incRefCnt_counter, refs_cons]
        simp only [List.not_mem_nil, iff_false]
        omega
      deletes := by simp
      once := List.nodup_nil }
  · exact agrees_touch incRefCnt_counter

end IncRef

section DecRef

variable {proofs : List VdfProof} {queued heads toDel : List ℕ} {i j idx : ℕ} {p : VdfProof}

theorem decRefCnt_counter : Counter VdfProof.decRefCnt := by
  constructor <;> rintro ⟨⟩ <;> rfl

def waiting (proofs : List VdfProof) (i : ℕ) : Bool := (proofs[i]?).any fun p => !p.has HW_VDF_PROOF_FLAG_STARTED

/-- The last reference is dropped. -/
def unreferenced (proofs : List VdfProof) (i : ℕ) : Bool := (proofs[i]?).any fun p => p.decRefCnt.refCnt = 0

theorem waiting_set (entry : proofs[idx]? = some p) : waiting (proofs.set idx p.decRefCnt) = waiting proofs := by
  funext i
  by_cases eq : idx = i
  · subst eq
    obtain ⟨inside, rfl⟩ := List.getElem?_eq_some_iff.mp entry
    simp [waiting, inside, decRefCnt_counter.has]
  · simp [waiting, List.getElem?_set_ne eq]

theorem toDel_eq (entry : proofs[idx]? = some p) :
    (if p.decRefCnt.refCnt = 0 then toDel ++ [idx] else toDel) =
      toDel ++ [idx].filter (unreferenced proofs) := by
  have zero : unreferenced proofs idx = decide (p.decRefCnt.refCnt = 0) := by
    rw [unreferenced, entry, Option.any_some]
  by_cases last : p.decRefCnt.refCnt = 0 <;> simp [zero, last]

/-- The walk goes on to the first entry that is started. -/
theorem decRefWalk_eq {prev : ℕ → Option ℕ} (descending : Descending prev) {fuel : ℕ}
    (links : prevOf proofs = prev) (enough : idx < fuel) (inside : ∀ j ∈ chain prev idx, j < proofs.length) :
    decRefWalk fuel proofs toDel idx =
      .done (touch VdfProof.decRefCnt ((chain prev idx).takeWhile (waiting proofs)) proofs,
        toDel ++ ((chain prev idx).takeWhile (waiting proofs)).filter (unreferenced proofs)) := by
  induction idx using link_induction descending generalizing fuel proofs toDel with
  | root idx root =>
    obtain ⟨fuel, rfl⟩ : ∃ n, fuel = n + 1 := ⟨fuel - 1, by omega⟩
    obtain ⟨q, entry⟩ : ∃ q, proofs[idx]? = some q := ⟨_, List.getElem?_eq_getElem (inside idx mem_chain_self)⟩
    have last := (prevOf_eq_none entry).mp (links ▸ root)
    have waits : waiting proofs idx = !q.has HW_VDF_PROOF_FLAG_STARTED := by rw [waiting, entry, Option.any_some]
    rw [decRefWalk, proofAt_eq entry, Exec.done_bind, chain_root root]
    by_cases started : q.has HW_VDF_PROOF_FLAG_STARTED = true
    · simp [started, waits, touch_nil]
    · have front : [idx].takeWhile (waiting proofs) = [idx] := by simp [waits, started]
      rw [if_neg started, if_pos last, front, ← touch_set entry List.not_mem_nil, touch_nil, toDel_eq entry]
  | step idx j link ih =>
    obtain ⟨fuel, rfl⟩ : ∃ n, fuel = n + 1 := ⟨fuel - 1, by omega⟩
    obtain ⟨q, entry⟩ : ∃ q, proofs[idx]? = some q := ⟨_, List.getElem?_eq_getElem (inside idx mem_chain_self)⟩
    obtain ⟨rfl, more⟩ := (prevOf_eq_some entry).mp (links ▸ link)
    have waits : waiting proofs idx = !q.has HW_VDF_PROOF_FLAG_STARTED := by rw [waiting, entry, Option.any_some]
    rw [decRefWalk, proofAt_eq entry, Exec.done_bind, chain_step descending link]
    by_cases started : q.has HW_VDF_PROOF_FLAG_STARTED = true
    · simp [started, waits, touch_nil]
    · have below := descending idx _ link
      have fresh : ∀ k ∈ (chain prev q.prev).takeWhile (waiting proofs), k ≠ idx := by
        intro k member
        have le := le_of_mem_chain descending (List.takeWhile_subset _ member)
        omega
      have same : prevOf (proofs.set idx q.decRefCnt) = prevOf proofs :=
        prevOf_set entry (decRefCnt_counter.prev q)
      have front : (idx :: chain prev q.prev).takeWhile (waiting proofs) =
          idx :: (chain prev q.prev).takeWhile (waiting proofs) := by simp [waits, started]
      have rest : ((chain prev q.prev).takeWhile (waiting proofs)).filter
            (unreferenced (proofs.set idx q.decRefCnt)) =
          ((chain prev q.prev).takeWhile (waiting proofs)).filter (unreferenced proofs) :=
        List.filter_congr fun k member => by
          rw [unreferenced, unreferenced, List.getElem?_set_ne (fresh k member).symm]
      rw [if_neg started, if_neg more, ih (same.trans links) (by omega) (by
        intro k member
        rw [List.length_set]
        exact inside k ((mem_chain_step descending link).mpr (.inr member)))]
      rw [waiting_set entry, rest, touch_set entry fun member => fresh idx member rfl, front,
        toDel_eq entry, List.append_assoc, ← List.filter_append, List.singleton_append]

theorem waiting_iff : waiting proofs i = true ↔ ∃ p, proofs[i]? = some p ∧ p.has HW_VDF_PROOF_FLAG_STARTED = false := by
  rw [waiting]
  cases proofs[i]? <;> simp

/-- The walk visits the entries of the chain that are not started. -/
theorem WellFormed.mem_takeWhile (table : WellFormed proofs) (live : LiveAt proofs idx p) :
    j ∈ (chain (prevOf proofs) idx).takeWhile (waiting proofs) ↔
      j ∈ chain (prevOf proofs) idx ∧ waiting proofs j = true := by
  constructor
  · intro member
    exact ⟨List.takeWhile_subset _ member, List.mem_takeWhile_imp member⟩
  · rintro ⟨member, waits⟩
    induction idx using link_induction table.descending generalizing p with
    | root idx root =>
      rw [chain_root root] at member ⊢
      obtain rfl := List.mem_singleton.mp member
      simp [waits]
    | step idx k link ih =>
      rw [chain_step table.descending link] at member ⊢
      by_cases started : p.has HW_VDF_PROOF_FLAG_STARTED = true
      · obtain ⟨q, at_j, waits'⟩ := waiting_iff.mp waits
        rw [← chain_step table.descending link] at member
        obtain ⟨r, live'⟩ := table.live_of_mem live member
        have same := Option.some.inj (at_j.symm.trans live'.entry)
        have has := table.started_of_mem live started member live'
        rw [← same, waits'] at has
        exact absurd has (by simp)
      · have waits_idx : waiting proofs idx = true := waiting_iff.mpr ⟨p, live.entry, by simpa using started⟩
        rw [List.takeWhile_cons, if_pos waits_idx]
        rcases List.mem_cons.mp member with rfl | later
        · exact List.mem_cons_self ..
        · obtain ⟨q, at_k, -⟩ := table.link live link
          exact List.mem_cons_of_mem _ (ih at_k later)

theorem Counted.waiting_of_queued (counted : Counted proofs queued heads toDel) (member : j ∈ queued) :
    waiting proofs j = true := by
  obtain ⟨q, at_j, waits⟩ := (counted.queue j).mp member
  exact waiting_iff.mpr ⟨q, at_j.entry, waits⟩

theorem Counted.queued_of_waiting (counted : Counted proofs queued heads toDel) (live : LiveAt proofs idx p)
    (on : j ∈ chain (prevOf proofs) idx) (waits : waiting proofs j = true) : j ∈ queued := by
  obtain ⟨q, at_j, waits'⟩ := waiting_iff.mp waits
  obtain ⟨r, live'⟩ := counted.table.live_of_mem live on
  obtain rfl := Option.some.inj (at_j.symm.trans live'.entry)
  exact (counted.queue j).mpr ⟨q, live', waits'⟩

/-- What the counter of an entry says after a walk over it. -/
theorem Counted.dropped {q : VdfProof} (counted : Counted proofs queued (idx :: heads) toDel)
    (room : heads.length < 2 ^ 16 - 1) (member : j ∈ queued) (entry : proofs[j]? = some q)
    (on : j ∈ chain (prevOf proofs) idx) :
    q.decRefCnt.refCnt = refs (prevOf proofs) heads j := by
  have count := counted.counts member entry
  have le : refs (prevOf proofs) heads j ≤ heads.length := refs_le
  rw [refs_cons, if_pos on] at count
  rw [VdfProof.decRefCnt]
  dsimp only
  omega

/-- A walk of `hw_proof_dec_ref` takes a head away. -/
theorem Counted.decRefWalk (counted : Counted proofs queued (idx :: heads) toDel) (room : heads.length < 2 ^ 16 - 1) :
    ∃ proofs' toDel', decRefWalk proofs.length proofs toDel idx = .done (proofs', toDel') ∧
      Counted proofs' queued heads toDel' ∧ prevOf proofs' = prevOf proofs ∧
      Agrees proofs proofs' := by
  have table := counted.table
  obtain ⟨p, live⟩ := counted.alive idx (List.mem_cons_self ..)
  have inside : ∀ j ∈ chain (prevOf proofs) idx, j < proofs.length := by
    intro j member
    obtain ⟨q, at_j⟩ := table.live_of_mem live member
    exact at_j.lt
  have visited {j : ℕ} : j ∈ (chain (prevOf proofs) idx).takeWhile (waiting proofs) ↔
      j ∈ chain (prevOf proofs) idx ∧ waiting proofs j = true := table.mem_takeWhile live
  have visited_queued {j : ℕ} (member : j ∈ (chain (prevOf proofs) idx).takeWhile (waiting proofs)) :
      j ∈ queued := counted.queued_of_waiting live (visited.mp member).1 (visited.mp member).2
  refine ⟨_, _, decRefWalk_eq table.descending rfl live.lt inside, ?_, prevOf_touch decRefCnt_counter, ?_⟩
  · exact {
      table := table.touch decRefCnt_counter fun j member =>
        table.live_of_mem live (List.takeWhile_subset _ member)
      queue := by
        intro i
        rw [counted.queue]
        constructor
        · rintro ⟨q, at_i, waits⟩
          exact ⟨_, (liveAt_touch decRefCnt_counter).mpr ⟨q, at_i, rfl⟩,
            (decRefCnt_counter.ite.has q _).trans waits⟩
        · rintro ⟨q', at_i', waits⟩
          obtain ⟨q, at_i, rfl⟩ := (liveAt_touch decRefCnt_counter).mp at_i'
          exact ⟨q, at_i, (decRefCnt_counter.ite.has q _).symm.trans waits⟩
      nodup := counted.nodup
      alive := by
        intro h member
        obtain ⟨q, at_h⟩ := counted.alive h (List.mem_cons_of_mem _ member)
        exact ⟨_, (liveAt_touch decRefCnt_counter).mpr ⟨q, at_h, rfl⟩⟩
      counts := by
        intro i q member entry
        rw [touch_getElem?] at entry
        obtain ⟨r, at_i, rfl⟩ := Option.map_eq_some_iff.mp entry
        rw [prevOf_touch decRefCnt_counter]
        by_cases on : i ∈ chain (prevOf proofs) idx
        · rw [if_pos (visited.mpr ⟨on, counted.waiting_of_queued member⟩)]
          exact counted.dropped room member at_i on
        · rw [if_neg fun visit => on (visited.mp visit).1, counted.counts member at_i, refs_cons, if_neg on]
          rfl
      unused := by
        intro i member
        obtain ⟨q, at_i, -⟩ := (counted.queue i).mp member
        have before := counted.unused i member
        rw [prevOf_touch decRefCnt_counter, List.mem_append, List.mem_filter, visited, ← before, refs_cons]
        by_cases on : i ∈ chain (prevOf proofs) idx
        · have last := counted.dropped room member at_i.entry on
          have zero : unreferenced proofs i = decide (q.decRefCnt.refCnt = 0) := by
            rw [unreferenced, at_i.entry, Option.any_some]
          simp [on, counted.waiting_of_queued member, zero, last]
        · simp [on]
      deletes := by
        intro i member
        rcases List.mem_append.mp member with old | new
        · exact counted.deletes i old
        · exact visited_queued (List.mem_filter.mp new).1
      once := by
        refine List.nodup_append.mpr ⟨counted.once, ?_, ?_⟩
        · exact ((nodup_chain table.descending idx).sublist (List.takeWhile_sublist _)).filter _
        · rintro i old j new rfl
          have visit := (List.mem_filter.mp new).1
          have none := (counted.unused i (visited_queued visit)).mpr old
          rw [refs_cons, if_pos (visited.mp visit).1] at none
          omega }
  · exact agrees_touch decRefCnt_counter

theorem Counted.decRefWalks {idxs : List ℕ} (counted : Counted proofs queued (idxs ++ heads) toDel)
    (room : (idxs ++ heads).length ≤ 2 ^ 16 - 1) :
    ∃ proofs' toDel', decRefWalks idxs proofs toDel = .done (proofs', toDel') ∧
      Counted proofs' queued heads toDel' ∧ Agrees proofs proofs' := by
  induction idxs generalizing proofs toDel with
  | nil => exact ⟨proofs, toDel, rfl, counted, fun live => ⟨_, live, rfl, rfl⟩⟩
  | cons idx idxs ih =>
    have shorter : (idxs ++ heads).length < 2 ^ 16 - 1 := by
      simp only [List.cons_append, List.length_cons] at room
      omega
    obtain ⟨proofs₁, toDel₁, walk, counted₁, -, agrees₁⟩ := Counted.decRefWalk counted shorter
    obtain ⟨proofs₂, toDel₂, walks, counted₂, agrees₂⟩ := ih counted₁ shorter.le
    refine ⟨proofs₂, toDel₂, ?_, counted₂, agrees₁.trans agrees₂⟩
    rw [ChiaVdf.decRefWalks, walk, Exec.done_bind]
    exact walks

end DecRef

section Delete

variable {proofs : List VdfProof} {queued heads toDel : List ℕ} {i j idx size : ℕ} {p : VdfProof}

theorem eraseQueued_cons (idx head : ℕ) (rest : List ℕ) : eraseQueued idx (head :: rest) =
    if head = idx then match rest with
      | [] => []
      | next :: rest => next :: eraseQueued idx rest
    else head :: eraseQueued idx rest := eraseQueued.eq_def ..

theorem eraseQueued_of_not_mem (fresh : idx ∉ queued) : eraseQueued idx queued = queued := by
  induction queued with
  | nil => rfl
  | cons head rest ih =>
    rw [List.mem_cons, not_or] at fresh
    rw [eraseQueued_cons, if_neg (Ne.symm fresh.1), ih fresh.2]

/-- In a queue without duplicates nothing is passed over. -/
theorem eraseQueued_eq (nodup : queued.Nodup) : eraseQueued idx queued = queued.filter (· ≠ idx) := by
  induction queued with
  | nil => rfl
  | cons head rest ih =>
    obtain ⟨fresh, nodup'⟩ := List.nodup_cons.mp nodup
    by_cases same : head = idx
    · subst same
      have kept : rest.filter (· ≠ head) = rest :=
        List.filter_eq_self.mpr fun k member => by simpa using ne_of_mem_of_not_mem member fresh
      rw [eraseQueued_cons, if_pos rfl, List.filter_cons_of_neg (by simp), kept]
      cases rest with
      | nil => rfl
      | cons next rest =>
        rw [List.mem_cons, not_or] at fresh
        dsimp only
        rw [eraseQueued_of_not_mem fresh.2]
    · rw [eraseQueued_cons, if_neg same, List.filter_cons_of_pos (by simpa using same), ih nodup']

/-- The loop erases the entries and shortens the table by a part of them. -/
theorem deleteProofs_spec (inside : ∀ i ∈ toDel, i < proofs.length) (once : toDel.Nodup) (nodup : queued.Nodup)
    (start : size ≤ proofs.length) : ∃ size', deleteProofs toDel proofs queued size =
      (touch (fun _ => .erased) toDel proofs, queued.filter (· ∉ toDel), size') ∧ size' ≤ size ∧
      ∀ i, size' ≤ i → i < size → i ∈ toDel := by
  induction toDel generalizing proofs queued size with
  | nil => exact ⟨size, by simp [deleteProofs, touch_nil], le_rfl, fun i low high => absurd low (by omega)⟩
  | cons idx toDel ih =>
    obtain ⟨fresh, once'⟩ := List.nodup_cons.mp once
    have entry := List.getElem?_eq_getElem (inside idx (List.mem_cons_self ..))
    have shorter : (if idx + 1 = size then size - 1 else size) ≤ (proofs.set idx .erased).length := by
      rw [List.length_set]
      split_ifs <;> omega
    have inside' : ∀ i ∈ toDel, i < (proofs.set idx .erased).length := by
      intro i member
      rw [List.length_set]
      exact inside i (List.mem_cons_of_mem _ member)
    obtain ⟨size', run, le, dropped⟩ := ih inside' once' (nodup.filter (· ≠ idx)) shorter
    refine ⟨size', ?_, ?_, ?_⟩
    · rw [deleteProofs, eraseQueued_eq nodup, run, List.filter_filter,
        touch_set (f := fun _ => .erased) entry fresh]
      simp only [List.mem_cons, not_or, Bool.decide_and, ne_eq, Bool.and_comm]
    · split_ifs at le <;> omega
    · intro i low high
      by_cases same : i = idx
      · exact same ▸ List.mem_cons_self ..
      · refine List.mem_cons_of_mem _ (dropped i low ?_)
        split_ifs <;> omega

/-- The table after the deletions. -/
structure Deleted (proofs : List VdfProof) (toDel : List ℕ) (proofs' : List VdfProof) : Prop where
  size : proofs'.length ≤ proofs.length
  entry : ∀ {i : ℕ} {p : VdfProof}, proofs'[i]? = some p → i ∈ toDel ∧ p = .erased ∨ i ∉ toDel ∧ proofs[i]? = some p
  kept : ∀ {i : ℕ}, i ∉ toDel → proofs'[i]? = proofs[i]?

theorem deleted_take (inside : ∀ i, size ≤ i → i < proofs.length → i ∈ toDel) :
    Deleted proofs toDel ((touch (fun _ => .erased) toDel proofs).take size) where
  size := by simp
  entry := by
    intro i p entry
    have low : i < size := by
      have bound := (List.getElem?_eq_some_iff.mp entry).1
      rw [List.length_take] at bound
      omega
    rw [List.getElem?_take_of_lt low, touch_getElem?] at entry
    obtain ⟨q, at_i, rfl⟩ := Option.map_eq_some_iff.mp entry
    by_cases member : i ∈ toDel
    · exact .inl ⟨member, by rw [if_pos member]⟩
    · exact .inr ⟨member, by rw [if_neg member, at_i]⟩
  kept := by
    intro i fresh
    by_cases low : i < size
    · rw [List.getElem?_take_of_lt low, touch_getElem?]
      simp only [fresh, if_false, Option.map_id']
    · have beyond : proofs.length ≤ i := by
        by_contra inner
        exact fresh (inside i (by omega) (by omega))
      rw [List.getElem?_eq_none beyond, List.getElem?_eq_none]
      rw [List.length_take, length_touch]
      omega

theorem Deleted.liveAt {proofs' : List VdfProof} (deleted : Deleted proofs toDel proofs') :
    LiveAt proofs' i p ↔ i ∉ toDel ∧ LiveAt proofs i p := by
  constructor
  · rintro ⟨entry, live⟩
    rcases deleted.entry entry with ⟨-, rfl⟩ | ⟨fresh, at_i⟩
    · exact absurd rfl live
    · exact ⟨fresh, at_i, live⟩
  · rintro ⟨fresh, entry, live⟩
    exact ⟨(deleted.kept fresh).trans entry, live⟩

theorem Deleted.prevOf {proofs' : List VdfProof} (deleted : Deleted proofs toDel proofs') (fresh : i ∉ toDel) :
    prevOf proofs' i = VdfProofs.prevOf proofs i := by
  rw [VdfProofs.prevOf, VdfProofs.prevOf, deleted.kept fresh]

theorem Deleted.descending {proofs' : List VdfProof} (deleted : Deleted proofs toDel proofs')
    (descending : Descending (VdfProofs.prevOf proofs)) : Descending (VdfProofs.prevOf proofs') := by
  intro i j link
  by_cases member : i ∈ toDel
  · rw [VdfProofs.prevOf] at link
    cases entry : proofs'[i]? with
    | none => simp [entry] at link
    | some p =>
      rcases deleted.entry entry with ⟨-, rfl⟩ | ⟨fresh, -⟩
      · simp [entry, VdfProof.erased] at link
      · exact absurd member fresh
  · rw [deleted.prevOf member] at link
    exact descending i j link

/-- Nothing that is kept leads to something that was deleted. -/
theorem Counted.kept_of_mem (counted : Counted proofs queued heads toDel) (live : LiveAt proofs i p)
    (fresh : i ∉ toDel) (member : j ∈ chain (prevOf proofs) i) : j ∉ toDel := by
  intro deleted
  have table := counted.table
  have queue := counted.deletes j deleted
  obtain ⟨q, at_j, waits⟩ := (counted.queue j).mp queue
  have none := (counted.unused j queue).mpr deleted
  by_cases started : p.has HW_VDF_PROOF_FLAG_STARTED = true
  · have has := table.started_of_mem live started member at_j
    simp [waits] at has
  · have queue_i := (counted.queue i).mpr ⟨p, live, by simpa using started⟩
    have used : 0 < refs (prevOf proofs) heads i :=
      Nat.pos_of_ne_zero fun zero => fresh ((counted.unused i queue_i).mp zero)
    obtain ⟨h, head, reach⟩ := refs_pos.mp used
    have used' : 0 < refs (prevOf proofs) heads j :=
      refs_pos.mpr ⟨h, head, mem_chain_trans table.descending reach member⟩
    omega

theorem Counted.delete {proofs' : List VdfProof} (counted : Counted proofs queued heads toDel)
    (deleted : Deleted proofs toDel proofs') : Counted proofs' (queued.filter (· ∉ toDel)) heads [] := by
  have table := counted.table
  have same {i : ℕ} {p : VdfProof} (live : LiveAt proofs i p) (fresh : i ∉ toDel) :
      chain (prevOf proofs') i = chain (prevOf proofs) i :=
    chain_congr table.descending (deleted.descending table.descending) fun j member =>
      deleted.prevOf (counted.kept_of_mem live fresh member)
  have head_fresh {h : ℕ} (head : h ∈ heads) : h ∉ toDel := by
    intro member
    have none := (counted.unused h (counted.deletes h member)).mpr member
    have used : 0 < refs (prevOf proofs) heads h := refs_pos.mpr ⟨h, head, mem_chain_self⟩
    omega
  have refs_eq (i : ℕ) : refs (prevOf proofs') heads i = refs (prevOf proofs) heads i :=
    refs_congr fun h head => by
      obtain ⟨q, at_h⟩ := counted.alive h head
      exact same at_h (head_fresh head)
  have mem_filter {i : ℕ} : i ∈ queued.filter (· ∉ toDel) ↔ i ∈ queued ∧ i ∉ toDel := by simp
  exact {
    table := {
      size := deleted.size.trans table.size
      erased := by
        intro i p entry dead
        rcases deleted.entry entry with ⟨-, rfl⟩ | ⟨-, at_i⟩
        · rfl
        · exact table.erased at_i dead
      descending := deleted.descending table.descending
      flags := fun live => table.flags (deleted.liveAt.mp live).2
      root := by
        intro i p live link
        obtain ⟨fresh, at_i⟩ := deleted.liveAt.mp live
        exact table.root at_i ((deleted.prevOf fresh).symm.trans link)
      link := by
        intro i j p live link
        obtain ⟨fresh, at_i⟩ := deleted.liveAt.mp live
        have link' := (deleted.prevOf fresh).symm.trans link
        obtain ⟨q, at_j, rest⟩ := table.link at_i link'
        have member := mem_chain_of_link table.descending mem_chain_self link'
        exact ⟨q, deleted.liveAt.mpr ⟨counted.kept_of_mem at_i fresh member, at_j⟩, rest⟩
      chkp := fun live => table.chkp (deleted.liveAt.mp live).2
      depth := by
        intro i p live
        obtain ⟨fresh, at_i⟩ := deleted.liveAt.mp live
        rw [same at_i fresh]
        exact table.depth at_i }
    queue := by
      intro i
      rw [mem_filter, counted.queue]
      constructor
      · rintro ⟨⟨p, live, waits⟩, fresh⟩
        exact ⟨p, deleted.liveAt.mpr ⟨fresh, live⟩, waits⟩
      · rintro ⟨p, live, waits⟩
        obtain ⟨fresh, at_i⟩ := deleted.liveAt.mp live
        exact ⟨⟨p, at_i, waits⟩, fresh⟩
    nodup := counted.nodup.filter _
    alive := by
      intro h head
      obtain ⟨q, at_h⟩ := counted.alive h head
      exact ⟨q, deleted.liveAt.mpr ⟨head_fresh head, at_h⟩⟩
    counts := by
      intro i p member entry
      obtain ⟨queue, fresh⟩ := mem_filter.mp member
      rw [refs_eq]
      exact counted.counts queue ((deleted.kept fresh).symm.trans entry)
    unused := by
      intro i member
      obtain ⟨queue, fresh⟩ := mem_filter.mp member
      rw [refs_eq, counted.unused i queue]
      simp [fresh]
    deletes := by simp
    once := List.nodup_nil }

/-- `hw_proof_dec_ref` takes the heads away that it is given, and with them all entries that no other
head reaches. -/
theorem Counted.decRef (std : StdSort) (vdf : VdfProofs) {idxs : List ℕ}
    (counted : Counted vdf.proofs vdf.queuedProofs (idxs ++ heads) [])
    (room : (idxs ++ heads).length ≤ 2 ^ 16 - 1) : ∃ proofs' queued',
      vdf.decRef std idxs = .done { vdf with proofs := proofs', queuedProofs := queued' } ∧
      Counted proofs' queued' heads [] ∧ Agrees vdf.proofs proofs' ∧ queued'.Sublist vdf.queuedProofs := by
  obtain ⟨proofs₁, toDel, walks, counted₁, agrees⟩ := counted.decRefWalks room
  have sorted : (std.sort id toDel).reverse.Perm toDel := (List.reverse_perm _).trans (std.perm _ _)
  have inside : ∀ i ∈ (std.sort id toDel).reverse, i < proofs₁.length := by
    intro i member
    obtain ⟨p, live, -⟩ := (counted₁.queue i).mp (counted₁.deletes i (sorted.mem_iff.mp member))
    exact live.lt
  obtain ⟨size, run, le, dropped⟩ := deleteProofs_spec inside (sorted.nodup_iff.mpr counted₁.once)
    counted₁.nodup le_rfl
  have deleted := deleted_take dropped
  have counted₂ : Counted proofs₁ vdf.queuedProofs heads (std.sort id toDel).reverse := {
    counted₁ with
    unused := fun i member => (counted₁.unused i member).trans sorted.mem_iff.symm
    deletes := fun i member => counted₁.deletes i (sorted.mem_iff.mp member)
    once := sorted.nodup_iff.mpr counted₁.once }
  refine ⟨_, _, ?_, counted₂.delete deleted, ?_, List.filter_sublist⟩
  · rw [VdfProofs.decRef, walks, Exec.done_bind]
    simp only [run, Exec.pure_eq]
  · exact agrees.trans fun live => ⟨_, (deleted.liveAt.mp live).2, rfl, rfl⟩

end Delete

end VdfProofs

end ChiaVdf
