import ChiaVdf.SquareDiscipline

/-! The phases of both threads keep to the discipline: on every schedule, each field is read as it was
written for the iteration, and what comes out is what one thread alone computes. -/
namespace ChiaVdf
namespace SquareThreads

open Handover Handover.Discipline

section Wrote

variable {t : Side} {n : ℕ} {v : View Value} {field : Field} {content : Value field}

/-- What a thread has written for turn `n`, and to what. -/
def Wrote (t : Side) (n : ℕ) (v : View Value) (field : Field) (content : Value field) : Prop :=
  v.known field = some ⟨content, some ⟨t, n⟩⟩

theorem Wrote.self : Wrote t n (v.wrote field ⟨content, some ⟨t, n⟩⟩) field content := View.wrote_self

theorem Wrote.wrote {field' : Field} {cell : Cell (Value field')} (known : Wrote t n v field content)
    (ne : field ≠ field') : Wrote t n (v.wrote field' cell) field content :=
  (View.wrote_other ne).trans known

theorem Wrote.passed {target : ℕ} (known : Wrote t n v field content) :
    Wrote t n (v.passed target) field content := known

end Wrote

section Rules

variable {p : Setting} {a b : ℤ} {doomed : Prop} {t u : Side} {α β : Type} {n m : ℕ} {s : Start}
  {post : α → View Value → Prop} {v : View Value} {field : Field} {x : Number} {value : ℤ}

/-- The code of thread `t` keeps to the discipline from a view on. -/
abbrev Keeps (p : Setting) (a b : ℤ) (doomed : Prop) (t : Side) (post : α → View Value → Prop)
    (code : Action α) (v : View Value) : Prop :=
  (discipline p a b).Ok doomed t post code v

theorem turn_le {counter : ℕ} (within : counter < 87 * (n + 1)) : counter / counterEnd ≤ n :=
  Nat.lt_succ_iff.mp (Nat.div_lt_of_lt_mul within)

theorem Keeps.fetch {content : Value field} {next : Value field → Action α}
    (within : v.counter < 87 * (n + 1)) (known : Wrote t n v field content)
    (rest : Keeps p a b doomed t post (next content) v) :
    Keeps p a b doomed t post (fetch t n field >>= next) v :=
  Ok.known content (turn_le within) known rest

theorem Keeps.load {next : ℤ → Action α} (within : v.counter < 87 * (n + 1))
    (known : Wrote t n v (.number x) value)
    (rest : Keeps p a b doomed t post (next value) v) :
    Keeps p a b doomed t post (load t n x >>= next) v :=
  Ok.known (f := Field.number x) value (turn_le within) known rest

theorem window_le {w : ℕ × ℕ} (opened : window field = some w) : w.1 ≤ 86 ∧ w.2 ≤ 86 := by
  unfold window at opened
  split at opened
  case h_5 g i =>
    split at opened
    case isTrue le =>
      obtain rfl := Option.some.inj opened
      have : i ≤ 40 := le
      have : g.delta ≤ 42 := by cases g <;> decide
      constructor <;> simp only [] <;> omega
    case isFalse => cases opened
  case h_15 => cases opened
  all_goals
    obtain rfl := Option.some.inj opened
    decide

theorem turn_within {y : ℕ} {counter : ℕ} (entered : 87 * n ≤ counter) (till : counter ≤ 87 * n + y)
    (small : y ≤ 86) : counter / counterEnd = n :=
  Nat.div_eq_of_lt_le (by rw [Nat.mul_comm]; exact entered)
    (by rw [Nat.mul_comm]; exact (by omega : counter < 87 * (n + 1)))

/-- A read of what the other thread hands over. That there is anything shows that the run has come to
this iteration. -/
theorem Keeps.fetchFirst {next : Value field → Action α} (owned : owner field = u)
    (other : u = t.other) (w : ℕ × ℕ) (opened : window field = some w)
    (since : 87 * n + w.1 ≤ v.fence) (entered : 87 * n ≤ v.counter)
    (till : v.counter ≤ 87 * n + w.2) (serves : Serves field n)
    (written : ∀ s, start p a b n = some s → Written p s field)
    (rest : ∀ s content, start p a b n = some s → HoldsValue p s n field content →
      Keeps p a b doomed t post (next content) v) :
    Keeps p a b doomed t post (SquareThreads.fetch u n field >>= next) v := by
  subst owned
  refine Ok.handed (d := discipline p a b) (f := field) other
    (turn_within entered till (window_le opened).2) ⟨w, opened, since, till, serves, written⟩ fun content holds => ?_
  obtain ⟨s, now, is⟩ := holds
  exact rest s content now is

theorem Keeps.fetchHanded {next : Value field → Action α} (now : start p a b n = some s)
    (owned : owner field = u) (other : u = t.other) (w : ℕ × ℕ) (opened : window field = some w)
    (since : 87 * n + w.1 ≤ v.fence) (entered : 87 * n ≤ v.counter)
    (till : v.counter ≤ 87 * n + w.2) (serves : Serves field n)
    (written : Written p s field)
    (rest : ∀ content, HoldsValue p s n field content → Keeps p a b doomed t post (next content) v) :
    Keeps p a b doomed t post (SquareThreads.fetch u n field >>= next) v := by
  have same {s' : Start} (now' : start p a b n = some s') : s = s' := Option.some.inj (now.symm.trans now')
  refine .fetchFirst owned other w opened since entered till serves (fun s' now' => same now' ▸ written)
    fun s' content now' is => ?_
  obtain rfl := same now'
  exact rest content is

theorem Keeps.loadHanded {next : ℤ → Action α} (now : start p a b n = some s)
    (owned : owner (.number x) = u) (other : u = t.other) (w : ℕ × ℕ)
    (opened : window (.number x) = some w) (since : 87 * n + w.1 ≤ v.fence) (entered : 87 * n ≤ v.counter)
    (till : v.counter ≤ 87 * n + w.2) (serves : Serves (.number x) n) (written : Written p s (.number x))
    (rest : ∀ content, HoldsValue p s n (.number x) content → Keeps p a b doomed t post (next content) v) :
    Keeps p a b doomed t post (SquareThreads.load u n x >>= next) v :=
  .fetchHanded now owned other w opened since entered till serves written rest

theorem Keeps.fetchValue {value : Value field} {next : Value field → Action α}
    (now : start p a b n = some s) (owned : owner field = u) (other : u = t.other) (w : ℕ × ℕ)
    (opened : window field = some w) (since : 87 * n + w.1 ≤ v.fence) (entered : 87 * n ≤ v.counter)
    (till : v.counter ≤ 87 * n + w.2)
    (serves : Serves field n) (written : Written p s field)
    (is : ∀ content, HoldsValue p s n field content → content = value)
    (rest : Keeps p a b doomed t post (next value) v) :
    Keeps p a b doomed t post (SquareThreads.fetch u n field >>= next) v :=
  .fetchHanded now owned other w opened since entered till serves written fun content holds =>
    is content holds ▸ rest

theorem Keeps.loadValue {next : ℤ → Action α} (now : start p a b n = some s)
    (owned : owner (.number x) = u) (other : u = t.other) (w : ℕ × ℕ)
    (opened : window (.number x) = some w) (since : 87 * n + w.1 ≤ v.fence) (entered : 87 * n ≤ v.counter)
    (till : v.counter ≤ 87 * n + w.2) (serves : Serves (.number x) n) (written : Written p s (.number x))
    (is : ∀ content, HoldsValue p s n (.number x) content → content = value)
    (rest : Keeps p a b doomed t post (next value) v) :
    Keeps p a b doomed t post (SquareThreads.load u n x >>= next) v :=
  .loadHanded now owned other w opened since entered till serves written fun content holds =>
    is content holds ▸ rest

theorem Keeps.put {content : Value field} {next : Unit → Action α}
    (mine : Mine t field v.counter v.fence)
    (rest : Keeps p a b doomed t post (next ()) (v.wrote field ⟨content, some ⟨t, n⟩⟩)) :
    Keeps p a b doomed t post (put n field content >>= next) v := Ok.write mine rest

theorem Keeps.putLast {content : Value field} {post : Unit → View Value → Prop}
    (mine : Mine t field v.counter v.fence) (rest : post () (v.wrote field ⟨content, some ⟨t, n⟩⟩)) :
    Keeps p a b doomed t post (SquareThreads.put n field content) v := Ok.write mine rest

theorem Keeps.store {next : Unit → Action α} (mine : Mine t (.number x) v.counter v.fence)
    (rest : Keeps p a b doomed t post (next ()) (v.wrote (.number x) ⟨value, some ⟨t, n⟩⟩)) :
    Keeps p a b doomed t post (store n x value >>= next) v := Ok.write mine rest

theorem Keeps.storeLast {post : Unit → View Value → Prop} (mine : Mine t (.number x) v.counter v.fence)
    (rest : post () (v.wrote (.number x) ⟨value, some ⟨t, n⟩⟩)) :
    Keeps p a b doomed t post (SquareThreads.store n x value) v := Ok.write mine rest

theorem Keeps.fence {target : ℕ} {next : Unit → Action α}
    (rest : Keeps p a b doomed t post (next ()) (v.passed target)) :
    Keeps p a b doomed t post (fence target >>= next) v := Ok.fence rest

theorem Keeps.giveUp (stops : doomed) : Keeps p a b doomed t post giveUp v := stops

theorem Keeps.negateIf {condition : Bool} {post : Unit → View Value → Prop}
    (within : v.counter < 87 * (n + 1))
    (known : Wrote t n v (.number x) value)
    (mine : Mine t (.number x) v.counter v.fence)
    (rest : post () (v.wrote (.number x) ⟨if condition then -value else value, some ⟨t, n⟩⟩)) :
    Keeps p a b doomed t post (negateIf t n condition x) v := by
  unfold SquareThreads.negateIf
  cases condition with
  | true =>
    rw [if_pos rfl]
    exact .load within known (.storeLast mine rest)
  | false =>
    rw [if_neg Bool.false_ne_true]
    rw [if_neg Bool.false_ne_true, View.wrote_known known] at rest
    exact rest

theorem Keeps.bind {code : Action β} {next : β → Action α}
    (first : Keeps p a b doomed t (fun x v' => Keeps p a b doomed t post (next x) v') code v) :
    Keeps p a b doomed t post (code >>= next) v := Ok.bind first

theorem legal_within {y : ℕ} (le : 87 * n ≤ v.fence) (small : y ≤ 87) : Legal (87 * n + y) v.fence := by
  intro m before
  omega

/-- The view behind `advance`: only shared fields are forgotten. -/
noncomputable def advancedTo (p : Setting) (a b : ℤ) (t : Side) (v : View Value) (target : ℕ) : View Value :=
  (discipline p a b).advanced t v target

@[simp] theorem advancedTo_counter {target : ℕ} : (advancedTo p a b t v target).counter = target := rfl

@[simp] theorem advancedTo_fence {target : ℕ} : (advancedTo p a b t v target).fence = v.fence := rfl

/-- The fields that only one thread writes. -/
def Own (t : Side) (field : Field) : Prop := owner field = t ∧ shared field = false

theorem advancedTo_known {target : ℕ} (own : Own t field) :
    (advancedTo p a b t v target).known field = v.known field := by
  refine if_pos ?_
  change Keep t field target v.fence
  unfold Keep
  rw [if_neg (by rw [own.2]; exact Bool.false_ne_true)]
  exact own.1

/-- What `advance` publishes in iteration `n`. -/
theorem Keeps.advance {y : ℕ} {k : Unit → Action α} (target : ℕ) (is : target = 87 * n + y)
    (small : y ≤ 86) (entered : 87 * n ≤ v.counter + 1) (le : v.counter ≤ 87 * n + y)
    (legal : Legal (87 * n + y) v.fence)
    (new : ∀ field w, owner field = t → window field = some w → v.counter < 87 * n + w.1 →
      w.1 ≤ y → Serves field n → (∀ s, start p a b n = some s → Written p s field) →
        ∃ content, Wrote t n v field content ∧ Holds p a b field n content)
    (rest : Keeps p a b doomed t post (k ()) (advancedTo p a b t v target)) :
    Keeps p a b doomed t post (advance target >>= k) v := by
  subst is
  refine Ok.advance le legal ?_ rest
  rintro field m q own _ ⟨w, opened, since, till, serves, written⟩ before
  obtain ⟨first, last⟩ := window_le opened
  have unpublished : v.counter < 87 * m + w.1 := by
    by_contra published
    exact before ⟨w, opened, not_lt.mp published, till, serves, written⟩
  obtain rfl : m = n := by omega
  exact new field w own opened unpublished (by omega) serves written

end Rules

section Gcds

variable {p : Setting} {a b : ℤ} {doomed : Prop} {g : Gcd} {n : ℕ} {s : Start}
  {post : Unit → View Value → Prop} {v : View Value} {field : Field}

theorem delta_le (g : Gcd) : g.delta ≤ 42 := by cases g <;> decide

theorem counterStart_eq (n : ℕ) : counterStart n = 87 * n := rfl

theorem mine_of {t : Side} {c q : ℕ} (n : ℕ) (own : Own t field)
    (free : ∀ w, window field = some w →
      Serves field n ∧ c < 87 * n + w.1 ∧ 87 * n + w.2 < q + 87 * period field) : Mine t field c q := by
  unfold Mine
  rw [if_neg (by rw [own.2]; exact Bool.false_ne_true)]
  exact ⟨own.1, fun w opened => ⟨n, free w opened⟩⟩

/-- The fields of a gcd, which its caller writes. -/
inductive OfGcd (g : Gcd) : Field → Prop
  | gcdAs (slot : Bool) : OfGcd g (.number (.gcdAs g slot))
  | gcdBs (slot : Bool) : OfGcd g (.number (.gcdBs g slot))
  | uvEntry (i : ℕ) : OfGcd g (.uvEntry g i)
  | endIndex : OfGcd g (.endIndex g)

theorem OfGcd.own (ofGcd : OfGcd g field) : Own g.caller field := by
  cases ofGcd <;> exact ⟨rfl, rfl⟩

/-- While the gcd runs its caller may write all of its fields but the entries that are published. -/
theorem OfGcd.mine {c q : ℕ} (ofGcd : OfGcd g field) (fence : 87 * n ≤ q)
    (before : c < 87 * n + g.delta + gcdNumCounter)
    (entry : ∀ i, field = .uvEntry g i → c ≤ 87 * n + g.delta + i) : Mine g.caller field c q := by
  have delta := delta_le g
  have places : gcdNumCounter = 41 := rfl
  refine mine_of n ofGcd.own fun w opened => ?_
  cases ofGcd with
  | gcdAs slot => cases opened
  | gcdBs slot =>
    cases g with
    | gcd10 => cases opened
    | gcdST =>
      obtain rfl := Option.some.inj opened
      refine ⟨trivial, ?_⟩
      simp only [period]
      omega
  | uvEntry i =>
    have := entry i rfl
    simp only [window, Option.ite_none_right_eq_some] at opened
    obtain rfl := Option.some.inj opened.2
    refine ⟨trivial, ?_⟩
    simp only [period]
    omega
  | endIndex =>
    cases g with
    | gcd10 => cases opened
    | gcdST =>
      obtain rfl := Option.some.inj opened
      refine ⟨trivial, ?_⟩
      simp only [period]
      omega

section Wrote

variable {t : Side} {content : Value field}

theorem Wrote.advanced {u : Side} {target : ℕ} (known : Wrote t n v field content) (own : Own u field) :
    Wrote t n (advancedTo p a b u v target) field content := (advancedTo_known own).trans known

theorem Wrote.behind {i target : ℕ} {cell : Cell (Value (.uvEntry g i))}
    (known : Wrote g.caller n v field content) (own : Own g.caller field) (ne : field ≠ .uvEntry g i) :
    Wrote g.caller n (advancedTo p a b g.caller (v.wrote (.uvEntry g i) cell) target) field content :=
  (known.wrote ne).advanced own

end Wrote

/-- The caller of a gcd behind entry `i`, with some iterations done. -/
structure Publishing (p : Setting) (s : Start) (g : Gcd) (n i : ℕ) (done : List (GcdUvEntry × ℤ × ℤ))
    (v : View Value) : Prop where
  since : 87 * n + g.delta ≤ v.counter
  till : v.counter ≤ 87 * n + g.delta + i
  close : 87 * n + g.delta + i ≤ v.counter + 1
  fence : 87 * n ≤ v.fence
  entries : ∀ j < i, ∃ entry, (s.gcd p g).matrixAt j = some entry ∧
    Wrote g.caller n v (.uvEntry g j) (entry, false)
  numberA : Wrote g.caller n v (.number (.gcdAs g i.bodd))
    (numbersAfter done (|(s.operands p g).1|, |(s.operands p g).2|)).1
  numberB : Wrote g.caller n v (.number (.gcdBs g i.bodd))
    (numbersAfter done (|(s.operands p g).1|, |(s.operands p g).2|)).2
  otherA : ∃ x, Wrote g.caller n v (.number (.gcdAs g !i.bodd)) x
  otherB : ∃ x, Wrote g.caller n v (.number (.gcdBs g !i.bodd)) x

/-- The caller behind the last entry. -/
structure Published (p : Setting) (s : Start) (g : Gcd) (n : ℕ) (v : View Value) : Prop where
  finishes : (s.gcd p g).Finishes
  counter : v.counter = 87 * n + g.delta + (s.gcd p g).steps.length
  last : ∃ entry, (s.gcd p g).matrixAt (s.gcd p g).steps.length = some entry ∧
    Wrote g.caller n v (.uvEntry g (s.gcd p g).steps.length) (entry, true)
  numberA : Wrote g.caller n v (.number (.gcdAs g (s.gcd p g).lastSlot)) (s.gcdEnd p g).1
  numberB : Wrote g.caller n v (.number (.gcdBs g (s.gcd p g).lastSlot)) (s.gcdEnd p g).2
  otherA : ∃ x, Wrote g.caller n v (.number (.gcdAs g !(s.gcd p g).lastSlot)) x
  otherB : ∃ x, Wrote g.caller n v (.number (.gcdBs g !(s.gcd p g).lastSlot)) x

/-- All else that a thread knows and that only it writes. -/
def Frame (g : Gcd) (v v' : View Value) : Prop :=
  v'.fence = v.fence ∧ ∀ field, Own g.caller field → ¬OfGcd g field → v'.known field = v.known field

theorem caller_inj {g' : Gcd} (same : g'.caller = g.caller) : g' = g := by
  cases g <;> cases g' <;> first | rfl | cases same

/-- While the gcd runs nothing but entries is published. -/
theorem entry_of_window {w : ℕ × ℕ} (own : owner field = g.caller) (opened : window field = some w)
    (low : g.delta < w.1) (high : w.1 ≤ g.delta + gcdNumCounter) :
    ∃ j ≤ gcdMaxIterations, field = .uvEntry g j ∧ w.1 = g.delta + j + 1 := by
  have places : gcdNumCounter = 41 := rfl
  have delta10 : Gcd.delta .gcd10 = 0 := rfl
  have deltaST : Gcd.delta .gcdST = 42 := rfl
  unfold window at opened
  split at opened
  case h_5 g' j =>
    obtain rfl := caller_inj own
    split at opened
    case isTrue le =>
      obtain rfl := Option.some.inj opened
      exact ⟨j, le, rfl, rfl⟩
    case isFalse => cases opened
  case h_15 => cases opened
  all_goals
    obtain rfl := Option.some.inj opened
    exfalso
    dsimp only at low high
    cases g <;> omega

theorem publish_entry {next : Unit → Action Unit} {i : ℕ} {done : List (GcdUvEntry × ℤ × ℤ)}
    {entry : GcdUvEntry} {last : Bool} (now : start p a b n = some s) (small : i ≤ gcdMaxIterations)
    (publishing : Publishing p s g n i done v)
    (length : i ≤ (s.gcd p g).steps.length)
    (rest : Keeps p a b doomed g.caller post (next ()) (advancedTo p a b g.caller
      (v.wrote (.uvEntry g i) ⟨(entry, last), some ⟨g.caller, n⟩⟩) (counterStart n + g.delta + i))) :
    Keeps p a b doomed g.caller post
      (put n (.uvEntry g i) (entry, last) >>= fun _ =>
        advance (counterStart n + g.delta + i) >>= next) v := by
  obtain ⟨since, till, close, fence, entries, -, -, -, -⟩ := publishing
  have delta := delta_le g
  have places : gcdMaxIterations = 40 := rfl
  have places' : gcdNumCounter = 41 := rfl
  refine .put ((OfGcd.uvEntry i).mine fence (by omega) fun j same => ?_) ?_
  · cases same
    omega
  refine .advance (y := g.delta + i) _ (by rw [counterStart_eq]; omega) (by omega)
    (by simp only [View.wrote_counter]; omega) (by simp only [View.wrote_counter]; omega)
    (legal_within fence (by omega)) ?_ rest
  intro field w own opened newly small' serves written
  rw [View.wrote_counter] at newly
  obtain ⟨j, -, rfl, at_⟩ := entry_of_window own opened (by omega) (by omega)
  obtain ⟨matrix, is, known⟩ := entries j (by omega)
  refine ⟨(matrix, false), ?_, s, now, matrix, is, ?_⟩
  · refine known.wrote fun same => ?_
    cases same
    omega
  · rw [decide_eq_false (by omega)]

theorem Frame.trans {v' v'' : View Value} (first : Frame g v v') (second : Frame g v' v'') :
    Frame g v v'' :=
  ⟨second.1.trans first.1, fun field own other => (second.2 field own other).trans (first.2 field own other)⟩

theorem Frame.wrote {content : Value field} {m : ℕ} (ofGcd : OfGcd g field) :
    Frame g v (v.wrote field ⟨content, some ⟨g.caller, m⟩⟩) := by
  refine ⟨rfl, fun field' _ other => View.wrote_other ?_⟩
  rintro rfl
  exact other ofGcd

theorem Frame.advanced {target : ℕ} : Frame g v (advancedTo p a b g.caller v target) :=
  ⟨rfl, fun _ own _ => advancedTo_known own⟩

theorem numbersAfter_append (done : List (GcdUvEntry × ℤ × ℤ)) (step : GcdUvEntry × ℤ × ℤ) (x : ℤ × ℤ) :
    numbersAfter (done ++ [step]) x = step.2 := by
  rw [numbersAfter, List.foldl_append]
  rfl

/-- The last entry: the loop ends with the numbers that the steps lead to, or it is stuck. -/
theorem publish_last {entry : GcdUvEntry} (now : start p a b n = some s)
    (publishing : Publishing p s g n (s.gcd p g).steps.length (s.gcd p g).steps v)
    (matrix : (s.gcd p g).matrixAt (s.gcd p g).steps.length = some entry)
    (small : (s.gcd p g).steps.length ≤ gcdMaxIterations) (stops : ¬(s.gcd p g).Finishes → doomed)
    (after : ∀ v', Published p s g n v' → Frame g v v' → post () v') :
    Keeps p a b doomed g.caller post (publish g n (s.gcd p g).stuck (s.gcd p g).steps.length entry []) v := by
  apply publish_entry now small publishing le_rfl
  obtain ⟨-, -, -, -, -, numberA, numberB, ⟨x, otherA⟩, ⟨y, otherB⟩⟩ := publishing
  by_cases stuck : (s.gcd p g).stuck = true
  · rw [if_pos stuck]
    refine .giveUp (stops fun finishes => ?_)
    rw [finishes.1] at stuck
    cases stuck
  · rw [if_neg stuck]
    rw [Bool.not_eq_true] at stuck
    refine after _ ⟨⟨stuck, small⟩, rfl, ⟨entry, matrix, ?_⟩, ?_, ?_, ⟨x, ?_⟩, ⟨y, ?_⟩⟩
      ((Frame.wrote (.uvEntry _)).trans .advanced)
    · rw [stuck]
      exact Wrote.self.advanced (OfGcd.uvEntry _).own
    · exact numberA.behind (OfGcd.gcdAs _).own nofun
    · exact numberB.behind (OfGcd.gcdBs _).own nofun
    · exact otherA.behind (OfGcd.gcdAs _).own nofun
    · exact otherB.behind (OfGcd.gcdBs _).own nofun

/-- The loop of the gcd, by induction over the iterations that are left. -/
theorem publish_keeps {i : ℕ} {done rest : List (GcdUvEntry × ℤ × ℤ)} {entry : GcdUvEntry}
    (now : start p a b n = some s) (publishing : Publishing p s g n i done v)
    (split : (s.gcd p g).steps = done ++ rest) (length : done.length = i)
    (matrix : (s.gcd p g).matrixAt i = some entry) (small : i ≤ gcdMaxIterations)
    (stops : ¬(s.gcd p g).Finishes → doomed)
    (after : ∀ v', Published p s g n v' → Frame g v v' → post () v') :
    Keeps p a b doomed g.caller post (publish g n (s.gcd p g).stuck i entry rest) v := by
  induction rest generalizing i done entry v with
  | nil =>
    rw [List.append_nil] at split
    subst split length
    exact publish_last now publishing matrix small stops after
  | cons step rest ih =>
    have longer : i < (s.gcd p g).steps.length := by
      rw [split, List.length_append, List.length_cons]
      omega
    refine publish_entry now small publishing longer.le ?_
    obtain ⟨since, till, close, fence, entries, numberA, numberB, -, -⟩ := publishing
    by_cases many : i ≥ gcdMaxIterations
    · rw [if_pos many]
      refine .giveUp (stops fun finishes => ?_)
      have := finishes.2
      omega
    rw [if_neg many]
    have places : gcdNumCounter = gcdMaxIterations + 1 := rfl
    have before : counterStart n + g.delta + i < 87 * n + g.delta + gcdNumCounter := by
      rw [counterStart_eq]
      omega
    refine .store ((OfGcd.gcdAs _).mine (n := n) fence before nofun)
      (.store ((OfGcd.gcdBs _).mine (n := n) fence before nofun) ?_)
    have step_at : (s.gcd p g).steps[i]? = some step := by
      rw [split, List.getElem?_append_right length.le, length, Nat.sub_self]
      rfl
    obtain ⟨numbers, same⟩ : ∃ numbers, numbers =
        numbersAfter done (|(s.operands p g).1|, |(s.operands p g).2|) := ⟨_, rfl⟩
    rw [← same] at numberA numberB
    refine ih (v := ((advancedTo p a b g.caller _ _).wrote _ _).wrote _ _) (i := i + 1)
      ⟨?_, ?_, ?_, fence, fun j lt => ?_, ?_, ?_, ⟨numbers.1, ?_⟩, ⟨numbers.2, ?_⟩⟩
      (show _ = (done ++ [step]) ++ rest from ?_) ?_ ?_ (by omega)
      fun v' published frame => after v' published ?_
    · simp only [View.wrote_counter, advancedTo_counter, counterStart_eq]
      omega
    · simp only [View.wrote_counter, advancedTo_counter, counterStart_eq]
      omega
    · simp only [View.wrote_counter, advancedTo_counter, counterStart_eq]
      omega
    · rcases Nat.lt_succ_iff_lt_or_eq.mp lt with earlier | rfl
      · obtain ⟨matrix', is, known⟩ := entries j earlier
        have ne : Field.uvEntry g j ≠ .uvEntry g i := fun same => by cases same; omega
        exact ⟨matrix', is,
          .wrote (.wrote (known.behind (OfGcd.uvEntry _).own ne) nofun) nofun⟩
      · exact ⟨_, matrix, .wrote (.wrote (Wrote.self.advanced (OfGcd.uvEntry _).own) nofun) nofun⟩
    · rw [numbersAfter_append]
      exact Wrote.self.wrote nofun
    · rw [numbersAfter_append]
      exact Wrote.self
    · rw [Nat.bodd_succ, Bool.not_not]
      exact .wrote (.wrote (numberA.behind (OfGcd.gcdAs _).own nofun) (by simp)) nofun
    · rw [Nat.bodd_succ, Bool.not_not]
      exact .wrote (.wrote (numberB.behind (OfGcd.gcdBs _).own nofun) nofun) (by simp)
    · rw [split, List.append_assoc]
      rfl
    · rw [List.length_append, length]
      rfl
    · rw [GcdSteps.matrixAt, step_at]
      rfl
    · exact (((Frame.wrote (.uvEntry i)).trans .advanced).trans
        ((Frame.wrote (.gcdAs _)).trans (Frame.wrote (.gcdBs _)))).trans frame

theorem finish_keeps {slot : Bool} {x : Bool → Number} {value : ℤ} {next : Unit → Action Unit}
    (within : v.counter < 87 * (n + 1)) (known : Wrote g.caller n v (.number (x slot)) value)
    (mine : Mine g.caller (.number (x slot)) v.counter v.fence)
    (rest : Keeps p a b doomed g.caller post (next ()) v) :
    Keeps p a b doomed g.caller post (finish n g.caller (x slot) >>= next) v := by
  refine .bind (.load within known (.storeLast mine ?_))
  rwa [View.wrote_known known]

/-- The caller of a gcd that has returned. -/
structure Returned (p : Setting) (s : Start) (g : Gcd) (n : ℕ) (v : View Value) : Prop where
  fits : s.Fits p g
  finishes : (s.gcd p g).Finishes
  endIndex : Wrote g.caller n v (.endIndex g) (s.gcd p g).lastSlot
  numberA : Wrote g.caller n v (.number (.gcdAs g (s.gcd p g).lastSlot)) (s.gcdEnd p g).1
  numberB : Wrote g.caller n v (.number (.gcdBs g (s.gcd p g).lastSlot)) (s.gcdEnd p g).2

theorem Published.returns (now : start p a b n = some s) (fits : s.Fits p g)
    (published : Published p s g n v) (fence : 87 * n ≤ v.fence)
    (after : ∀ v', v'.counter = 87 * n + g.delta + gcdNumCounter → Returned p s g n v' → Frame g v v' →
      post () v') :
    Keeps p a b doomed g.caller post (do
      put n (.endIndex g) (s.gcd p g).steps.length.bodd
      finish n g.caller (.gcdAs g false)
      finish n g.caller (.gcdAs g true)
      finish n g.caller (.gcdBs g false)
      finish n g.caller (.gcdBs g true)
      advance (counterStart n + g.delta + gcdNumCounter)) v := by
  obtain ⟨finishes, counter, ⟨matrix, is, last⟩, numberA, numberB, ⟨x, otherA⟩, ⟨y, otherB⟩⟩ := published
  have places : gcdNumCounter = 41 := rfl
  have few : (s.gcd p g).steps.length ≤ 40 := finishes.2
  have mine {field' : Field} (ofGcd : OfGcd g field')
      (entry : ∀ i, field' ≠ .uvEntry g i) : Mine g.caller field' v.counter v.fence :=
    ofGcd.mine fence (by omega) fun i same => absurd same (entry i)
  have both {x : Bool → Number} {y z : ℤ} (slot : Bool) (here : Wrote g.caller n v (.number (x slot)) y)
      (there : Wrote g.caller n v (.number (x !slot)) z) (slot' : Bool) :
      ∃ y, Wrote g.caller n v (.number (x slot')) y := by
    cases slot <;> cases slot' <;> first | exact ⟨_, here⟩ | exact ⟨_, there⟩
  have within : v.counter < 87 * (n + 1) := by
    have := delta_le g
    omega
  have allA := both (x := .gcdAs g) _ numberA otherA
  have allB := both (x := .gcdBs g) _ numberB otherB
  refine .put (mine .endIndex nofun) ?_
  refine finish_keeps within ((allA false).choose_spec.wrote nofun) (mine (.gcdAs _) nofun) ?_
  refine finish_keeps within ((allA true).choose_spec.wrote nofun) (mine (.gcdAs _) nofun) ?_
  refine finish_keeps within ((allB false).choose_spec.wrote nofun) (mine (.gcdBs _) nofun) ?_
  refine finish_keeps within ((allB true).choose_spec.wrote nofun) (mine (.gcdBs _) nofun) ?_
  have delta := delta_le g
  refine .advance (k := .ret) (y := g.delta + gcdNumCounter) _ (by rw [counterStart_eq]; omega)
    (by omega) (by simp only [View.wrote_counter]; omega) (by simp only [View.wrote_counter]; omega)
    (legal_within fence (by omega)) ?_ (after _ rfl ?_ ((Frame.wrote .endIndex).trans .advanced))
  · intro field' w own opened newly small serves written
    rw [View.wrote_counter] at newly
    obtain ⟨j, -, rfl, at_⟩ := entry_of_window own opened (by omega) (by omega)
    obtain rfl : j = (s.gcd p g).steps.length := by
      rcases written s now with le | stops
      · omega
      · exact absurd finishes stops
    refine ⟨_, last.wrote nofun, s, now, matrix, is, ?_⟩
    rw [decide_eq_true ⟨rfl, finishes.1⟩]
  · exact ⟨fits, finishes, Wrote.self.advanced OfGcd.endIndex.own,
      .advanced (numberA.wrote nofun) (OfGcd.gcdAs _).own,
      .advanced (numberB.wrote nofun) (OfGcd.gcdBs _).own⟩

/-- `gcd_unsigned` keeps to the discipline: its entries are handed over one by one. -/
theorem gcdUnsigned_keeps {threshold : ℤ} (now : start p a b n = some s)
    (counter : v.counter = 87 * n + g.delta) (fence : 87 * n ≤ v.fence)
    (numberA : Wrote g.caller n v (.number (.gcdAs g false)) (s.operands p g).1)
    (numberB : Wrote g.caller n v (.number (.gcdBs g false)) (s.operands p g).2)
    (is : s.gcd p g = p.gcd |(s.operands p g).1| |(s.operands p g).2| threshold)
    (stops : ¬s.Fits p g ∨ ¬(s.gcd p g).Finishes → doomed)
    (after : ∀ v', v'.counter = 87 * n + g.delta + gcdNumCounter → Returned p s g n v' → Frame g v v' →
      post () v') :
    Keeps p a b doomed g.caller post (gcdUnsigned g n p threshold) v := by
  have within : v.counter < 87 * (n + 1) := by
    have := delta_le g
    omega
  refine .load within numberA (.load within numberB ?_)
  by_cases fits : s.Fits p g
  · rw [if_neg fits, ← is]
    have places : gcdNumCounter = 41 := rfl
    have mine {field' : Field} (ofGcd : OfGcd g field')
        (entry : ∀ i, field' ≠ .uvEntry g i) : Mine g.caller field' v.counter v.fence :=
      ofGcd.mine fence (by omega) fun i same => absurd same (entry i)
    refine .store (mine (.gcdAs _) nofun) (.store (mine (.gcdBs _) nofun) ?_)
    refine .store (mine (.gcdAs _) nofun) (.store (mine (.gcdBs _) nofun) (.bind ?_))
    refine publish_keeps now ⟨?_, ?_, ?_, fence, nofun, ?_, ?_, ⟨0, ?_⟩, ⟨0, ?_⟩⟩
      (show _ = [] ++ (s.gcd p g).steps from rfl) rfl rfl
      (Nat.zero_le _) (fun endless => stops (.inr endless)) fun v' published frame => ?_
    · exact counter.ge
    · exact counter.le
    · exact counter.ge.trans (Nat.le_succ _)
    · exact .wrote (.wrote (.wrote .self nofun) nofun) nofun
    · exact .wrote (.wrote .self nofun) nofun
    · exact .wrote .self nofun
    · exact .self
    · refine published.returns now fits (by rw [frame.1]; exact fence) fun v'' counter' returned frame' => ?_
      exact after v'' counter' returned ((((Frame.wrote (.gcdAs _)).trans (.wrote (.gcdBs _))).trans
        ((Frame.wrote (.gcdAs _)).trans (.wrote (.gcdBs _)))).trans (frame.trans frame'))
  · rw [if_pos (not_not.mp fits)]
    exact .giveUp (stops (.inl fits))

/-- What the entries of a gcd are applied to, which the other thread writes. -/
inductive OfProduct (g : Gcd) : Field → Prop
  | cofactor0 (slot : Bool) : OfProduct g (.number (.cofactor0 g slot))
  | cofactor1 (slot : Bool) : OfProduct g (.number (.cofactor1 g slot))

theorem OfProduct.own (ofProduct : OfProduct g field) : Own g.caller.other field := by
  cases ofProduct <;> exact ⟨rfl, rfl⟩

theorem OfProduct.mine {c q : ℕ} (ofProduct : OfProduct g field) (counter : c ≤ 87 * n + g.delta)
    (fence : 87 * n ≤ q) : Mine g.caller.other field c q := by
  have delta := delta_le g
  refine mine_of n ofProduct.own fun w opened => ?_
  cases ofProduct <;> cases g <;> cases opened
  all_goals
    refine ⟨trivial, ?_⟩
    simp only [period]
    omega

/-- The other thread in front of entry `i`. -/
structure Applying (p : Setting) (s : Start) (g : Gcd) (n i : ℕ) (v : View Value) : Prop where
  entered : 87 * n ≤ v.counter
  counter : v.counter ≤ 87 * n + g.delta
  fence : 87 * n ≤ v.fence
  available : i ≤ (s.gcd p g).steps.length ∨ ¬(s.gcd p g).Finishes
  cofactor0 : Wrote g.caller.other n v (.number (.cofactor0 g i.pred.bodd))
    (product ((s.gcd p g).steps.take i.pred) (s.vector g)).1
  cofactor1 : Wrote g.caller.other n v (.number (.cofactor1 g i.pred.bodd))
    (product ((s.gcd p g).steps.take i.pred) (s.vector g)).2

theorem Applying.passed {i target : ℕ} (applying : Applying p s g n i v) :
    Applying p s g n i (v.passed target) :=
  { applying with fence := applying.fence.trans (le_max_left _ _) }

/-- The other thread behind the last entry. -/
structure Applied (p : Setting) (s : Start) (g : Gcd) (n : ℕ) (v : View Value) : Prop where
  finishes : (s.gcd p g).Finishes
  cofactor0 : Wrote g.caller.other n v (.number (.cofactor0 g (s.gcd p g).lastSlot)) (s.cofactors p g).1
  cofactor1 : Wrote g.caller.other n v (.number (.cofactor1 g (s.gcd p g).lastSlot)) (s.cofactors p g).2

/-- All else that the other thread knows. -/
structure Beside (g : Gcd) (v v' : View Value) : Prop where
  counter : v'.counter = v.counter
  fence : v.fence ≤ v'.fence
  known : ∀ field, ¬OfProduct g field → v'.known field = v.known field

theorem Beside.trans {v' v'' : View Value} (first : Beside g v v') (second : Beside g v' v'') :
    Beside g v v'' where
  counter := second.counter.trans first.counter
  fence := first.fence.trans second.fence
  known field other := (second.known field other).trans (first.known field other)

theorem Beside.refl : Beside g v v := ⟨rfl, le_rfl, fun _ _ => rfl⟩

theorem Beside.passed {target : ℕ} : Beside g v (v.passed target) := ⟨rfl, le_max_left _ _, fun _ _ => rfl⟩

theorem Beside.wrote {cell : Cell (Value field)} (ofProduct : OfProduct g field) :
    Beside g v (v.wrote field cell) := by
  refine ⟨rfl, le_rfl, fun field' other => View.wrote_other ?_⟩
  rintro rfl
  exact other ofProduct

theorem product_append (steps : List (GcdUvEntry × ℤ × ℤ)) (step : GcdUvEntry × ℤ × ℤ) (x : ℤ × ℤ) :
    product (steps ++ [step]) x = step.1.matrixMultiply (product steps x) := by
  rw [product, List.foldl_append]
  rfl

theorem matrixMultiply_keeps {α : Type} {post : α → View Value → Prop} {next : Unit → Action α}
    {entry : GcdUvEntry} {index : Bool} {x : ℤ × ℤ} (counter : v.counter ≤ 87 * n + g.delta)
    (fence : 87 * n ≤ v.fence)
    (cofactor0 : Wrote g.caller.other n v (.number (.cofactor0 g index)) x.1)
    (cofactor1 : Wrote g.caller.other n v (.number (.cofactor1 g index)) x.2)
    (rest : ∀ v', Wrote g.caller.other n v' (.number (.cofactor0 g !index)) (entry.matrixMultiply x).1 →
      Wrote g.caller.other n v' (.number (.cofactor1 g !index)) (entry.matrixMultiply x).2 →
      Beside g v v' → Keeps p a b doomed g.caller.other post (next ()) v') :
    Keeps p a b doomed g.caller.other post (matrixMultiply g n entry index >>= next) v := by
  have within : v.counter < 87 * (n + 1) := by
    have := delta_le g
    omega
  refine .bind (.load within cofactor0 (.load within cofactor1 ?_))
  refine .store (OfProduct.mine (.cofactor0 _) counter fence) ?_
  refine .storeLast (OfProduct.mine (.cofactor1 _) counter fence) ?_
  exact rest _ (.wrote .self nofun) .self (.trans (.wrote (.cofactor0 _)) (.wrote (.cofactor1 _)))

theorem Keeps.fetchEntry {α : Type} {post : α → View Value → Prop} {i : ℕ}
    {next : GcdUvEntry × Bool → Action α} (now : start p a b n = some s) (small : i ≤ gcdMaxIterations)
    (entered : 87 * n ≤ v.counter) (counter : v.counter ≤ 87 * n + g.delta)
    (handed : 87 * n + (g.delta + i + 1) ≤ v.fence)
    (available : i ≤ (s.gcd p g).steps.length ∨ ¬(s.gcd p g).Finishes)
    (rest : ∀ entry, (s.gcd p g).matrixAt i = some entry → Keeps p a b doomed g.caller.other post
      (next (entry, decide (i = (s.gcd p g).steps.length ∧ (s.gcd p g).stuck = false))) v) :
    Keeps p a b doomed g.caller.other post (SquareThreads.fetch g.caller n (.uvEntry g i) >>= next) v := by
  refine .fetchHanded now rfl (Side.other_other _).symm (g.delta + i + 1, g.delta) (if_pos small) handed
    entered counter trivial available fun content is => ?_
  obtain ⟨entry, at_, rfl⟩ := is
  exact rest entry at_

/-- Behind entry `i` the product is that of the first `i` matrices. -/
theorem applyEntry_keeps {α : Type} {post : α → View Value → Prop} {i : ℕ} {next : Bool → Action α}
    (now : start p a b n = some s) (small : i ≤ gcdMaxIterations) (applying : Applying p s g n i v)
    (handed : 87 * n + (g.delta + i + 1) ≤ v.fence)
    (rest : ∀ v', Wrote g.caller.other n v' (.number (.cofactor0 g i.bodd))
        (product ((s.gcd p g).steps.take i) (s.vector g)).1 →
      Wrote g.caller.other n v' (.number (.cofactor1 g i.bodd))
        (product ((s.gcd p g).steps.take i) (s.vector g)).2 →
      Beside g v v' → Keeps p a b doomed g.caller.other post (next i.bodd) v') :
    Keeps p a b doomed g.caller.other post (applyEntry g n i i.pred.bodd >>= next) v := by
  obtain ⟨entered, counter, fence, available, cofactor0, cofactor1⟩ := applying
  cases i with
  | zero => exact rest v cofactor0 cofactor1 .refl
  | succ j =>
    refine .bind (.fetchEntry now small entered counter handed available fun entry at_ => ?_)
    obtain ⟨step, there, rfl⟩ := Option.map_eq_some_iff.mp at_
    have longer : product ((s.gcd p g).steps.take (j + 1)) (s.vector g) =
        step.1.matrixMultiply (product ((s.gcd p g).steps.take j) (s.vector g)) := by
      rw [List.take_add_one, there]
      exact product_append _ step _
    rw [longer, Nat.bodd_succ] at rest
    exact matrixMultiply_keeps counter fence cofactor0 cofactor1 rest

theorem Applied.of_all {i : ℕ} (all : i = (s.gcd p g).steps.length) (finishes : (s.gcd p g).Finishes)
    (cofactor0 : Wrote g.caller.other n v (.number (.cofactor0 g i.bodd))
      (product ((s.gcd p g).steps.take i) (s.vector g)).1)
    (cofactor1 : Wrote g.caller.other n v (.number (.cofactor1 g i.bodd))
      (product ((s.gcd p g).steps.take i) (s.vector g)).2) : Applied p s g n v := by
  subst all
  rw [List.take_length] at cofactor0 cofactor1
  exact ⟨finishes, cofactor0, cofactor1⟩

/-- The loop over `get_entry`, by induction over the entries that there may still be. -/
theorem applyEntries_keeps {post : Bool → View Value → Prop} {left i : ℕ} (now : start p a b n = some s)
    (many : i + left = gcdNumCounter) (applying : Applying p s g n i v)
    (stops : ¬(s.gcd p g).Finishes → doomed)
    (after : ∀ v', Applied p s g n v' → Beside g v v' → post (s.gcd p g).lastSlot v') :
    Keeps p a b doomed g.caller.other post (applyEntries g n left i i.pred.bodd) v := by
  have places : gcdNumCounter = gcdMaxIterations + 1 := rfl
  induction left generalizing i v with
  | zero =>
    refine .giveUp (stops fun finishes => ?_)
    rcases applying.available with le | stops
    · have := finishes.2
      omega
    · exact stops finishes
  | succ left ih =>
    have small : i ≤ gcdMaxIterations := by omega
    have handed : 87 * n + (g.delta + i + 1) ≤ (v.passed (counterStart n + g.delta + i + 1)).fence :=
      le_max_of_le_right (by rw [counterStart_eq]; omega)
    refine .fence (applyEntry_keeps now small applying.passed handed fun v' cofactor0 cofactor1 beside => ?_)
    have entered : 87 * n ≤ v'.counter := applying.entered.trans_eq beside.counter.symm
    have counter : v'.counter ≤ 87 * n + g.delta := beside.counter.trans_le applying.counter
    have handed' := handed.trans beside.fence
    refine .fetchEntry now small entered counter handed' applying.available fun entry at_ => ?_
    have among := GcdSteps.length_of_matrixAt at_
    by_cases last : i = (s.gcd p g).steps.length ∧ (s.gcd p g).stuck = false
    · rw [decide_eq_true last, if_pos rfl]
      have post' := after v' (.of_all last.1 ⟨last.2, last.1 ▸ small⟩ cofactor0 cofactor1)
        (Beside.passed.trans beside)
      rwa [GcdSteps.lastSlot, ← last.1] at post'
    · rw [decide_eq_false last, if_neg Bool.false_ne_true]
      refine ih (i := i + 1) (by omega) ⟨entered, counter, by omega, ?_, cofactor0, cofactor1⟩
        fun v'' applied beside' => after v'' applied ((Beside.passed.trans beside).trans beside')
      rcases Nat.lt_or_eq_of_le among with lt | same
      · exact .inl lt
      · exact .inr fun finishes => last ⟨same, finishes.1⟩

end Gcds

/-- Which fields are handed over from which counter of an iteration on. -/
inductive Opens : Field → ℕ → Prop
  | as (slot : Bool) : Opens (.number (.as slot)) 0
  | bs (slot : Bool) : Opens (.number (.bs slot)) 0
  | abIndex : Opens .abIndex 0
  | bHigher : Opens .bHigher 0
  | uvEntry (g : Gcd) (i : ℕ) : i ≤ 40 → Opens (.uvEntry g i) (g.delta + i + 1)
  | v0s (slot : Bool) : Opens (.number (.v0s slot)) 84
  | v1s (slot : Bool) : Opens (.number (.v1s slot)) 84
  | vIndex : Opens .vIndex 84
  | c : Opens (.number .c) 42
  | gcdBs (slot : Bool) : Opens (.number (.gcdBs .gcdST slot)) 84
  | endIndex : Opens (.endIndex .gcdST) 84
  | tTS : Opens (.number .tTS) 85
  | v02 : Opens (.number .v02) 85
  | e : Opens (.number .e) 86

section Windows

variable {field : Field} {t : Side} {n c q : ℕ} {w : ℕ × ℕ}

theorem opens_of_window (opened : window field = some w) : Opens field w.1 := by
  unfold window at opened
  split at opened
  case h_5 g i =>
    split at opened
    case isTrue le =>
      obtain rfl := Option.some.inj opened
      exact .uvEntry g i le
    case isFalse => cases opened
  case h_15 => cases opened
  all_goals
    obtain rfl := Option.some.inj opened
    constructor

theorem mine_unhanded (own : Own t field) (never : window field = none) : Mine t field c q :=
  mine_of 0 own fun w opened => by cases never.symm.trans opened

theorem mine_before {first last : ℕ} (n : ℕ) (own : Own t field) (opened : window field = some (first, last))
    (serves : Serves field n) (before : c < 87 * n + first) (past : 87 * n + last < q + 87) :
    Mine t field c q :=
  mine_of n own fun w opened' => by
    obtain rfl : (first, last) = w := Option.some.inj (opened.symm.trans opened')
    refine ⟨serves, before, past.trans_le (Nat.add_le_add_left ?_ q)⟩
    unfold period
    split <;> decide

theorem mine_next (own : Own t field) (opened : window field = some (0, 85)) (serves : Serves field (n + 1))
    (twice : period field = 2) (before : c < 87 * (n + 1)) (past : 87 * n ≤ q) : Mine t field c q :=
  mine_of (n + 1) own fun w opened' => by
    obtain rfl : (0, 85) = w := Option.some.inj (opened.symm.trans opened')
    rw [twice]
    exact ⟨serves, before, by omega⟩

end Windows

section Division

variable {p : Setting} {a b : ℤ} {doomed : Prop} {t u : Side} {n : ℕ} {s : Start} {v : View Value}
  {field : Field} {content : Value field}

/-- A read finds the content, be it the thread's own or handed over. -/
def Finds (p : Setting) (a b : ℤ) (t : Side) (v : View Value) (u : Side) (n : ℕ) (field : Field)
    (content : Value field) : Prop :=
  u = t ∧ v.counter < 87 * (n + 1) ∧ Wrote t n v field content ∨
    owner field = u ∧ u = t.other ∧ v.counter / counterEnd = n ∧
    HandedOver p a b field n v.fence v.counter ∧ ∀ x, Holds p a b field n x → x = content

theorem Finds.wrote {field' : Field} {cell : Cell (Value field')} (finds : Finds p a b t v u n field content)
    (ne : field ≠ field') : Finds p a b t (v.wrote field' cell) u n field content :=
  finds.imp_left fun own => ⟨own.1, own.2.1, own.2.2.wrote ne⟩

theorem Keeps.found {α : Type} {post : α → View Value → Prop} {x : Number} {value : ℤ}
    {next : ℤ → Action α} (finds : Finds p a b t v u n (.number x) value)
    (rest : Keeps p a b doomed t post (next value) v) :
    Keeps p a b doomed t post (SquareThreads.load u n x >>= next) v := by
  rcases finds with ⟨rfl, within, known⟩ | ⟨rfl, other, now, handed, is⟩
  · exact .load within known rest
  · exact Ok.handed (d := discipline p a b) (f := Field.number x) other now handed fun content holds =>
      is content holds ▸ rest

/-- Either thread may divide while it is at the shared fields. -/
theorem divideC_keeps {α : Type} {post : α → View Value → Prop} {i j : Bool} {next : Unit → Action α}
    (within : v.counter < 87 * (n + 1))
    (mine : ∀ field, shared field = true → Mine t field v.counter v.fence)
    (findsA : Finds p a b t v .master n (.number (.as i)) s.a)
    (findsB : Finds p a b t v .master n (.number (.bs j)) s.b)
    (rest : ∀ v', v'.counter = v.counter → v'.fence = v.fence →
      (∀ field, shared field = false → v'.known field = v.known field) →
      Wrote t n v' (.number .c) (s.c p) → Wrote t n v' (.number .cRemainder) (s.cRemainder p) →
      Keeps p a b doomed t post (next ()) v') :
    Keeps p a b doomed t post (divideC p n t i j >>= next) v := by
  refine .bind (.found findsB (.store (mine _ rfl) ?_))
  refine .found (.wrote findsA nofun) (.store (mine _ rfl) (.load within (.wrote .self nofun) ?_))
  refine .store (mine _ rfl) (.load within .self (.load within (.wrote .self nofun) ?_))
  refine .store (mine _ rfl) (.storeLast (mine _ rfl) ?_)
  refine rest _ rfl rfl (fun field own => ?_) (.wrote .self nofun) .self
  have ne {x : Field} (both : shared x = true) : field ≠ x := by
    rintro rfl
    rw [both] at own
    cases own
  rw [View.wrote_other (ne rfl), View.wrote_other (ne rfl), View.wrote_other (ne rfl),
    View.wrote_other (ne rfl), View.wrote_other (ne rfl)]

end Division

end SquareThreads
end ChiaVdf
