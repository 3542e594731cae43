import ZephyrRust.Philosophers.Table

/-!
Fork implementations that keep the `ForkSync` contract. Such an implementation
has, for each fork, a count of the takes that would return at once: `take`
waits for a positive count and lowers it, `release` of a taken fork raises it
back. Started with every count at one, the count of a fork and the number of
philosophers holding it always add up to one. So no fork has two holders:
neighbours at the table, who share a fork, never eat together, and at most half
of the philosophers eat at once. Two implementations qualify: the contract
itself, a set of held forks, and the kernel semaphores behind `semaphore_sync`.
-/
namespace ZephyrRust.Philosophers

variable {σ : Type} {N : Nat} {sync : ForkSync σ} {s t : Table N σ} {p : Fin N}

/-- A `ForkSync` that keeps the contract, read through `avail`: for each fork, the takes
that would return at once. -/
structure Counting (sync : ForkSync σ) where
  avail : σ → Nat → Nat
  ready_iff : ∀ x i, sync.ready x i = true ↔ 0 < avail x i
  avail_take : ∀ x i, avail (sync.take x i) = Function.update (avail x) i (avail x i - 1)
  avail_release : ∀ x i, avail x i = 0 →
    avail (sync.release x i) = Function.update (avail x) i 1

/-- The count of each fork and the number of its holders add up to one. -/
def Conserved (c : Counting sync) (s : Table N σ) : Prop :=
  ∀ i, c.avail s.syncer i + (holders s i).card = 1

theorem avail_eq_zero_of_holds {c : Counting sync} (hs : Conserved c s) {i : Nat}
    (hp : Holds s p i) : c.avail s.syncer i = 0 := by
  have hpos : 0 < (holders s i).card := Finset.card_pos.2 ⟨p, by simpa [holders] using hp⟩
  have := hs i
  omega

theorem holds_step_self (hN : 2 ≤ N) (h : step sync s p = some t) (j : Nat) :
    Holds t p j ↔ j ∈ ((s.pc p).op (forks N p)).apply ((s.pc p).held (forks N p)) := by
  rw [Holds, (step_eq_some h).1, Function.update_same, Pc.held_next (forks_ne hN)]

theorem card_holders_step (h : step sync s p = some t) (j : Nat) :
    (holders t j).card + (if Holds s p j then 1 else 0) =
      (holders s j).card + (if Holds t p j then 1 else 0) := by
  simp only [holders, Finset.card_filter]
  exact sum_add_of_eq_off (fun q => if Holds t q j then 1 else 0)
    (fun q => if Holds s q j then 1 else 0) fun q hq => by simp only [Holds, pc_step_of_ne h hq]

/-- A step moves one unit between a fork's count and its taker's hand. -/
theorem avail_add_holds_step (hN : 2 ≤ N) {c : Counting sync} (hs : Conserved c s)
    (h : step sync s p = some t) (j : Nat) :
    c.avail t.syncer j + (if Holds t p j then 1 else 0) =
      c.avail s.syncer j + (if Holds s p j then 1 else 0) := by
  have hperf := (step_eq_some h).2
  have hheld := holds_step_self hN h j
  rcases hop : (s.pc p).op (forks N p) with i | i | _ <;> rw [hop] at hperf hheld
  · have hi : ¬ Holds s p i := Pc.not_mem_held_of_take (forks_ne hN) hop
    obtain ⟨hready, hy⟩ := ForkSync.perform_take_eq_some hperf
    have hpos := (c.ready_iff _ _).1 hready
    rw [hy, c.avail_take]
    by_cases hji : j = i
    · subst hji
      simp only [hheld, Op.apply, List.mem_append, List.mem_singleton, or_true, if_true,
        hi, if_false, Function.update_same]
      omega
    · simp only [hheld]
      simp [Op.apply, hji, Holds]
  · have hi : Holds s p i := Pc.mem_held_of_release hop
    rw [← Option.some.inj hperf, c.avail_release _ _ (avail_eq_zero_of_holds hs hi)]
    by_cases hji : j = i
    · subst hji
      have hnd := Pc.held_nodup (forks_ne hN : (forks N p).1 ≠ (forks N p).2) (s.pc p)
      simp [hheld, Op.apply, List.Nodup.mem_erase_iff hnd, hi, avail_eq_zero_of_holds hs hi]
    · simp only [hheld]
      simp [Op.apply, List.mem_erase_of_ne hji, hji, Holds]
  · rw [← Option.some.inj hperf]
    simp only [hheld]
    simp [Op.apply, Holds]

theorem conserved_step (hN : 2 ≤ N) {c : Counting sync} (hs : Conserved c s)
    (h : step sync s p = some t) : Conserved c t := by
  intro j
  have hcard := card_holders_step h j
  have hunit := avail_add_holds_step hN hs h j
  have hj := hs j
  omega

theorem conserved_reachable (hN : 2 ≤ N) (c : Counting sync) {init : σ}
    (hinit : ∀ i, c.avail init i = 1) (hs : Reachable sync init s) : Conserved c s := by
  induction hs with
  | initial => intro i; simp [hinit, initial, holders, Holds, Pc.held]
  | step p _ h ih => exact conserved_step hN ih h

theorem card_holders_le_one {c : Counting sync} (hs : Conserved c s) (i : Nat) :
    (holders s i).card ≤ 1 := by
  have := hs i
  omega

theorem eq_of_holds {c : Counting sync} (hs : Conserved c s) {q : Fin N} {i : Nat}
    (hp : Holds s p i) (hq : Holds s q i) : p = q :=
  Finset.card_le_one.1 (card_holders_le_one hs i) p (by simpa [holders] using hp) q
    (by simpa [holders] using hq)

theorem lt_of_holds {i : Nat} (h : Holds s p i) : i < N := by
  have hf := forks_lt_num p.isLt
  cases hpc : s.pc p <;> simp only [Holds, hpc, Pc.held, List.mem_cons, List.mem_singleton,
    List.not_mem_nil, or_false] at h <;> omega

theorem neighbour_fork (hN : 2 ≤ N) {n : Nat} (hn : n < N) :
    (n + 1) % N ≠ n ∧ (n + 1) % N ∈ Pc.eating.held (forks N n) ∧
      (n + 1) % N ∈ Pc.eating.held (forks N ((n + 1) % N)) := by
  rcases Nat.lt_or_ge (n + 1) N with h | h
  · rw [Nat.mod_eq_of_lt h]
    simp only [Pc.held, forks, List.mem_cons, List.mem_singleton, List.not_mem_nil, or_false]
    split_ifs <;> omega
  · obtain rfl : N = n + 1 := by omega
    rw [Nat.mod_self]
    simp only [Pc.held, forks, List.mem_cons, List.mem_singleton, List.not_mem_nil, or_false]
    split_ifs <;> omega

/-- Philosophers eating at once hold disjoint pairs of the `N` forks. -/
theorem two_mul_card_eating_le (hN : 2 ≤ N) {c : Counting sync} (hs : Conserved c s) :
    2 * (Finset.univ.filter fun p => s.pc p = .eating).card ≤ N := by
  set E := Finset.univ.filter fun p => s.pc p = .eating
  let hand : Fin N → Finset Nat := fun p => ((s.pc p).held (forks N p)).toFinset
  have hcard : ∀ p ∈ E, (hand p).card = 2 := fun p hp => by
    rw [List.toFinset_card_of_nodup (Pc.held_nodup (forks_ne hN) _), (Finset.mem_filter.1 hp).2]
    rfl
  have hdisj : ∀ p ∈ E, ∀ q ∈ E, p ≠ q → Disjoint (hand p) (hand q) :=
    fun p _ q _ hpq => Finset.disjoint_left.2 fun _ hp hq =>
      hpq (eq_of_holds hs (List.mem_toFinset.1 hp) (List.mem_toFinset.1 hq))
  have hsub : E.biUnion hand ⊆ Finset.range N := fun i hi => by
    obtain ⟨p, -, hp⟩ := Finset.mem_biUnion.1 hi
    exact Finset.mem_range.2 (lt_of_holds (List.mem_toFinset.1 hp))
  calc 2 * E.card = ∑ p ∈ E, (hand p).card := by
        rw [Finset.sum_const_nat hcard, Nat.mul_comm]
    _ = (E.biUnion hand).card := (Finset.card_biUnion hdisj).symm
    _ ≤ (Finset.range N).card := Finset.card_le_card hsub
    _ = N := Finset.card_range N

/-- The `ForkSync` contract as an implementation, a set of held forks: `take` waits until
its fork is not held and then holds it, `release` frees it. -/
def contract : ForkSync (Finset Nat) where
  ready held i := decide (i ∉ held)
  take held i := insert i held
  release held i := held.erase i

def contractCounting : Counting contract where
  avail held i := if i ∈ held then 0 else 1
  ready_iff x i := by by_cases h : i ∈ x <;> simp [contract, h]
  avail_take x i := by
    funext j
    by_cases hj : j = i
    · subst hj
      by_cases h : j ∈ x <;> simp [contract, h]
    · simp [contract, hj, Function.update_noteq hj]
  avail_release x i h := by
    funext j
    by_cases hj : j = i
    · subst hj
      simp [contract]
    · simp [contract, hj, Function.update_noteq hj]

/-- `semsync::semaphore_sync`: each fork a kernel semaphore. `take` waits for a positive
count and decrements it; `release` increments it. -/
def semaphore : ForkSync (Nat → Nat) where
  ready count i := decide (0 < count i)
  take count i := Function.update count i (count i - 1)
  release count i := Function.update count i (count i + 1)

def semaphoreCounting : Counting semaphore where
  avail count := count
  ready_iff _ _ := by simp [semaphore]
  avail_take _ _ := rfl
  avail_release _ _ h := by simp [semaphore, h]

/-- Semaphore forks started at one: each count plus the fork's holders is one, so a fork
has one holder at most, no count passes one, and only the holder releases. -/
theorem semaphore_conservation {s : Table N (Nat → Nat)} (hN : 2 ≤ N)
    (hs : Reachable semaphore (fun _ => 1) s) :
    (∀ r, s.syncer r + (holders s r).card = 1) ∧
    (∀ r p q, Holds s p r → Holds s q r → p = q) ∧
    (∀ r, s.syncer r ≤ 1) ∧
    (∀ p r, (s.pc p).op (forks N p) = .release r → Holds s p r ∧ s.syncer r = 0) := by
  have hc : Conserved semaphoreCounting s :=
    conserved_reachable hN semaphoreCounting (fun _ => rfl) hs
  have hsum : ∀ r, s.syncer r + (holders s r).card = 1 := hc
  refine ⟨hsum, fun r p q => eq_of_holds hc, fun r => by have := hsum r; omega, fun p r hr => ?_⟩
  have hp : Holds s p r := Pc.mem_held_of_release hr
  exact ⟨hp, avail_eq_zero_of_holds hc hp⟩

theorem semaphore_conservation_two :
    let t : Table 2 (Nat → Nat) := ⟨Function.update (Function.update (Function.update
      (fun _ => .hungry) 0 .takeRight) 0 .eating) 0 .givingUp,
      semaphore.take (semaphore.take (fun _ => 1) 0) 1⟩
    (t.pc 0).op (forks 2 0) = .release 1 ∧
    2 ≤ 2 ∧ Reachable semaphore (fun _ => 1) t ∧
    (∀ r, t.syncer r + (holders t r).card = 1) ∧
    (∀ r p q, Holds t p r → Holds t q r → p = q) ∧
    (∀ r, t.syncer r ≤ 1) ∧
    (∀ p r, (t.pc p).op (forks 2 p) = .release r → Holds t p r ∧ t.syncer r = 0) :=
  ⟨rfl, le_refl 2, .step 0 (.step 0 (.step 0 .initial rfl) rfl) rfl,
    semaphore_conservation (le_refl 2) (.step 0 (.step 0 (.step 0 .initial rfl) rfl) rfl)⟩

/-- Forks that keep the contract: neighbours never eat together, and at most half eat. -/
theorem eating_exclusive (hN : 2 ≤ N) (c : Counting sync) {init : σ}
    (hinit : ∀ i, c.avail init i = 1) (hs : Reachable sync init s) :
    (∀ p q : Fin N, q.val = (p.val + 1) % N → ¬ (s.pc p = .eating ∧ s.pc q = .eating)) ∧
    2 * (Finset.univ.filter fun p => s.pc p = .eating).card ≤ N := by
  have hc := conserved_reachable hN c hinit hs
  refine ⟨fun p q hq ⟨hp, hq'⟩ => ?_, two_mul_card_eating_le hN hc⟩
  obtain ⟨hne, hpf, hqf⟩ := neighbour_fork hN p.isLt
  have hpf' : Holds s p ((p.val + 1) % N) := by rw [Holds, hp]; exact hpf
  have hqf' : Holds s q ((p.val + 1) % N) := by rw [Holds, hq', hq]; exact hqf
  exact hne (by rw [← hq, ← eq_of_holds hc hpf' hqf'])

theorem eating_exclusive_semaphore :
    let t : Table 2 (Nat → Nat) := ⟨Function.update (Function.update
      (fun _ => .hungry) 0 .takeRight) 0 .eating, semaphore.take (semaphore.take (fun _ => 1) 0) 1⟩
    t.pc 0 = .eating ∧
    2 ≤ 2 ∧ (∀ i, semaphoreCounting.avail (fun _ => 1) i = 1) ∧
    Reachable semaphore (fun _ => 1) t ∧
    (∀ p q : Fin 2, q.val = (p.val + 1) % 2 → ¬ (t.pc p = .eating ∧ t.pc q = .eating)) ∧
    2 * (Finset.univ.filter fun p => t.pc p = .eating).card ≤ 2 :=
  ⟨rfl, le_refl 2, fun _ => rfl, .step 0 (.step 0 .initial rfl) rfl,
    eating_exclusive (le_refl 2) semaphoreCounting (fun _ => rfl) (.step 0 (.step 0 .initial rfl) rfl)⟩

end ZephyrRust.Philosophers
