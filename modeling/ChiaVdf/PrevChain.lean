import Mathlib.Tactic

/-! Chains of links through a table in which every link goes to a smaller index, and the number of heads
from which an entry is reached. -/
namespace PrevChain

/-- At most `fuel` entries of the chain from `i`. -/
def walk (prev : ℕ → Option ℕ) : ℕ → ℕ → List ℕ
  | 0, _ => []
  | fuel + 1, i => i :: match prev i with
    | none => []
    | some j => walk prev fuel j

/-- The chain from `i`; links go down, so it has no more than `i + 1` entries. -/
def chain (prev : ℕ → Option ℕ) (i : ℕ) : List ℕ := walk prev (i + 1) i

def Descending (prev : ℕ → Option ℕ) : Prop := ∀ i j, prev i = some j → j < i

/-- How many of the heads reach `i`. -/
def refs (prev : ℕ → Option ℕ) (heads : List ℕ) (i : ℕ) : ℕ := heads.countP fun h => i ∈ chain prev h

variable {prev prev' : ℕ → Option ℕ} {heads : List ℕ} {h i j k : ℕ}

theorem walk_eq (descending : Descending prev) {fuel : ℕ} (enough : i < fuel) :
    walk prev fuel i = chain prev i := by
  induction i using Nat.strong_induction_on generalizing fuel with
  | _ i ih =>
    obtain ⟨fuel, rfl⟩ : ∃ n, fuel = n + 1 := ⟨fuel - 1, by omega⟩
    cases link : prev i with
    | none => simp only [chain, walk, link]
    | some j =>
      have below := descending i j link
      simp only [chain, walk, link]
      rw [ih j below (by omega), ih j below (by omega)]

@[simp] theorem chain_root (root : prev i = none) : chain prev i = [i] := by
  simp only [chain, walk, root]

theorem chain_step (descending : Descending prev) (link : prev i = some j) :
    chain prev i = i :: chain prev j := by
  rw [chain, walk, link]
  exact congrArg (i :: ·) (walk_eq descending (descending i j link))

theorem link_induction (descending : Descending prev) {motive : ℕ → Prop}
    (root : ∀ i, prev i = none → motive i) (step : ∀ i j, prev i = some j → motive j → motive i) (i : ℕ) :
    motive i := by
  induction i using Nat.strong_induction_on with
  | _ i ih =>
    cases link : prev i with
    | none => exact root i link
    | some j => exact step i j link (ih j (descending i j link))

theorem mem_chain_self : i ∈ chain prev i := List.mem_cons_self ..

theorem mem_chain_step (descending : Descending prev) (link : prev i = some j) :
    k ∈ chain prev i ↔ k = i ∨ k ∈ chain prev j := by
  rw [chain_step descending link, List.mem_cons]

theorem mem_chain_root (root : prev i = none) : k ∈ chain prev i ↔ k = i := by
  rw [chain_root root, List.mem_singleton]

/-- What holds at a head and is handed on by links holds along the chain. -/
theorem forall_mem_chain (descending : Descending prev) {P : ℕ → Prop}
    (closed : ∀ i j, P i → prev i = some j → P j) (start : P i) (member : j ∈ chain prev i) : P j := by
  induction i using link_induction descending with
  | root i root =>
    rw [mem_chain_root root] at member
    exact member ▸ start
  | step i k link ih =>
    rcases (mem_chain_step descending link).mp member with rfl | later
    · exact start
    · exact ih (closed i k start link) later

theorem le_of_mem_chain (descending : Descending prev) (member : j ∈ chain prev i) : j ≤ i :=
  forall_mem_chain (P := (· ≤ i)) descending (fun _ _ le link => (descending _ _ link).le.trans le) le_rfl member

theorem mem_chain_trans (descending : Descending prev) (first : j ∈ chain prev i) (second : k ∈ chain prev j) :
    k ∈ chain prev i := by
  induction i using link_induction descending with
  | root i root =>
    obtain rfl := (mem_chain_root root).mp first
    exact second
  | step i l link ih =>
    rcases (mem_chain_step descending link).mp first with rfl | later
    · exact second
    · exact (mem_chain_step descending link).mpr (.inr (ih later))

theorem mem_chain_of_link (descending : Descending prev) (first : j ∈ chain prev i) (link : prev j = some k) :
    k ∈ chain prev i :=
  mem_chain_trans descending first ((mem_chain_step descending link).mpr (.inr mem_chain_self))

theorem chain_congr (descending : Descending prev) (descending' : Descending prev')
    (same : ∀ j ∈ chain prev i, prev' j = prev j) : chain prev' i = chain prev i := by
  induction i using link_induction descending with
  | root i root => rw [chain_root root, chain_root ((same i mem_chain_self).trans root)]
  | step i j link ih =>
    have link' := (same i mem_chain_self).trans link
    rw [chain_step descending link, chain_step descending' link']
    rw [ih fun k member => same k ((mem_chain_step descending link).mpr (.inr member))]

theorem nodup_chain (descending : Descending prev) (i : ℕ) : (chain prev i).Nodup := by
  induction i using link_induction descending with
  | root i root => rw [chain_root root]; exact List.nodup_singleton i
  | step i j link ih =>
    rw [chain_step descending link]
    refine List.nodup_cons.mpr ⟨fun member => ?_, ih⟩
    have le := le_of_mem_chain descending member
    have below := descending i j link
    omega

@[simp] theorem refs_cons : refs prev (h :: heads) i = refs prev heads i + if i ∈ chain prev h then 1 else 0 := by
  simp [refs, List.countP_cons]

theorem refs_perm {heads' : List ℕ} (perm : heads.Perm heads') : refs prev heads i = refs prev heads' i :=
  perm.countP_eq _

theorem refs_le : refs prev heads i ≤ heads.length := List.countP_le_length

theorem refs_pos : 0 < refs prev heads i ↔ ∃ h ∈ heads, i ∈ chain prev h := by
  simp [refs, List.countP_pos_iff]

theorem refs_congr (same : ∀ h ∈ heads, chain prev' h = chain prev h) :
    refs prev' heads i = refs prev heads i := by
  unfold refs
  refine List.countP_congr fun h member => ?_
  rw [same h member]

end PrevChain
