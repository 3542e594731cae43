import ZephyrRust.Philosophers.Liveness

/-!
Which tables occur. Over forks that keep the `ForkSync` contract, and whose
counts determine their state, as the semaphores' and the contract's do, a table
is reachable exactly when every fork's count and its number of holders add up to
one. One half is the conservation law. For the other, the last call of some
philosopher away from the top of its loop can always be undone: a `take` by a
`release` of its fork, a `release` by a `take` of its fork, which is free unless
another philosopher has taken it since. Of the philosophers whose last call
released their second fork, the one whose first fork is largest finds that
fork free, since its holder would have had to take it first. Undoing calls
one at a time leads back to the start.
-/
namespace ZephyrRust.Philosophers

variable {σ : Type} {N : Nat} {sync : ForkSync σ} {s : Table N σ} {p : Fin N}

namespace Pc

/-- The place before `pc` in the loop. -/
def prev : Pc → Pc
  | hungry => thinking
  | takeRight => hungry
  | eating => takeRight
  | givingUp => eating
  | releaseLeft => givingUp
  | thinking => releaseLeft

theorem next_prev (pc : Pc) : pc.prev.next = pc := by
  cases pc <;> rfl

def fromTop : Pc → Nat
  | hungry => 0
  | takeRight => 1
  | eating => 2
  | givingUp => 3
  | releaseLeft => 4
  | thinking => 5

theorem fromTop_prev {pc : Pc} (h : pc ≠ .hungry) : pc.prev.fromTop + 1 = pc.fromTop := by
  cases pc <;> simp_all [prev, fromTop]

end Pc

def fromTop (s : Table N σ) : Nat := ∑ q, (s.pc q).fromTop

/-- `s` with philosopher `p` one place back in its loop and the forks in `x`. -/
def before (s : Table N σ) (p : Fin N) (x : σ) : Table N σ :=
  ⟨Function.update s.pc p (s.pc p).prev, x⟩

@[simp] theorem before_syncer (x : σ) : (before s p x).syncer = x := rfl

theorem fromTop_before (hp : s.pc p ≠ .hungry) (x : σ) : fromTop (before s p x) + 1 = fromTop s := by
  have hsum : ∑ q, ((before s p x).pc q).fromTop + (s.pc p).fromTop =
      ∑ q, (s.pc q).fromTop + ((before s p x).pc p).fromTop :=
    sum_add_of_eq_off (fun q => ((before s p x).pc q).fromTop) (fun q => (s.pc q).fromTop)
      fun q hq => by simp only [before, Function.update_noteq hq]
  have hprev := Pc.fromTop_prev hp
  simp only [before, Function.update_same] at hsum
  simp only [fromTop, before]
  omega

theorem step_before (x : σ) :
    step sync (before s p x) p =
      (sync.perform x ((s.pc p).prev.op (forks N p))).map fun y => ⟨s.pc, y⟩ := by
  simp only [step, before, Function.update_same, Pc.next_prev, Function.update_idem,
    Function.update_eq_self]

theorem holds_before {x : σ} {j : Nat} :
    Holds (before s p x) p j ↔ j ∈ (s.pc p).prev.held (forks N p) := by
  simp only [Holds, before, Function.update_same]

/-- A table one call before one that keeps the count law keeps it too, when the call
moved one unit between a fork's count and its taker's hand. -/
theorem conserved_of_step_to {c : Counting sync} {s' : Table N σ} (hs : Conserved c s)
    (h : step sync s' p = some s)
    (hunit : ∀ j, c.avail s'.syncer j + (if Holds s' p j then 1 else 0) =
      c.avail s.syncer j + (if Holds s p j then 1 else 0)) :
    Conserved c s' := by
  intro j
  have hcard := card_holders_step h j
  have hj := hunit j
  have hsj := hs j
  omega

theorem holds_iff_prev (hN : 2 ≤ N) (j : Nat) :
    Holds s p j ↔ j ∈ ((s.pc p).prev.op (forks N p)).apply ((s.pc p).prev.held (forks N p)) := by
  rw [Holds, ← Pc.held_next (forks_ne hN), Pc.next_prev]

section Undo

variable (hN : 2 ≤ N) {c : Counting sync} (hinj : Function.Injective c.avail)
  (hs : Conserved c s) {i : Nat}
include hN hinj hs

theorem undo_take (hop : (s.pc p).prev.op (forks N p) = .take i) :
    step sync (before s p (sync.release s.syncer i)) p = some s ∧
      Conserved c (before s p (sync.release s.syncer i)) := by
  have hi' : i ∉ (s.pc p).prev.held (forks N p) := Pc.not_mem_held_of_take (forks_ne hN) hop
  have hi : Holds s p i := (holds_iff_prev hN i).2 (by simp [hop, Op.apply])
  have h0 := avail_eq_zero_of_holds hs hi
  have hrel := c.avail_release _ _ h0
  have hback : sync.take (sync.release s.syncer i) i = s.syncer := hinj (by
    rw [c.avail_take, hrel, Function.update_idem, Function.update_same, Nat.sub_self, ← h0,
      Function.update_eq_self])
  have hready : sync.ready (sync.release s.syncer i) i = true :=
    (c.ready_iff _ _).2 (by rw [hrel, Function.update_same]; exact Nat.one_pos)
  have hstep : step sync (before s p (sync.release s.syncer i)) p = some s := by
    rw [step_before, hop]
    simp [ForkSync.perform, hready, hback]
  refine ⟨hstep, conserved_of_step_to hs hstep fun j => ?_⟩
  simp only [holds_before]
  simp only [holds_iff_prev hN, hop]
  by_cases hji : j = i
  · subst hji
    simp [hrel, hi', Op.apply, h0]
  · simp [hrel, Op.apply, hji]

theorem undo_release (hop : (s.pc p).prev.op (forks N p) = .release i) (hfree : holders s i = ∅) :
    step sync (before s p (sync.take s.syncer i)) p = some s ∧
      Conserved c (before s p (sync.take s.syncer i)) := by
  have hi : i ∈ (s.pc p).prev.held (forks N p) := Pc.mem_held_of_release hop
  have hnd := Pc.held_nodup (forks_ne hN : (forks N p).1 ≠ (forks N p).2) (s.pc p).prev
  have h1 : c.avail s.syncer i = 1 := by simpa [hfree] using hs i
  have htake := c.avail_take s.syncer i
  have hzero : c.avail (sync.take s.syncer i) i = 0 := by simp [htake, h1]
  have hback : sync.release (sync.take s.syncer i) i = s.syncer := hinj (by
    rw [c.avail_release _ _ hzero, htake, Function.update_idem, ← h1, Function.update_eq_self])
  have hstep : step sync (before s p (sync.take s.syncer i)) p = some s := by
    rw [step_before, hop]
    simp [ForkSync.perform, hback]
  refine ⟨hstep, conserved_of_step_to hs hstep fun j => ?_⟩
  simp only [holds_before]
  simp only [holds_iff_prev hN, hop]
  by_cases hji : j = i
  · subst hji
    simp [htake, hi, Op.apply, List.Nodup.mem_erase_iff hnd, h1]
  · simp [htake, Op.apply, List.mem_erase_of_ne hji, hji]

/-- A philosopher's last call can be undone unless it released a fork held now. -/
theorem exists_before
    (hfree : ∀ i, (s.pc p).prev.op (forks N p) = .release i → holders s i = ∅) :
    ∃ x, step sync (before s p x) p = some s ∧ Conserved c (before s p x) := by
  rcases hop : (s.pc p).prev.op (forks N p) with i | i | _
  · exact ⟨_, undo_take hN hinj hs hop⟩
  · exact ⟨_, undo_release hN hinj hs hop (hfree i hop)⟩
  · have hstep : step sync (before s p s.syncer) p = some s := by
      rw [step_before, hop]
      rfl
    refine ⟨_, hstep, conserved_of_step_to hs hstep fun j => ?_⟩
    simp only [holds_before]
    simp only [holds_iff_prev hN, hop, Op.apply, before_syncer]

end Undo

/-- Away from the start some philosopher has a last call that can be undone. -/
theorem exists_undoable (hN : 2 ≤ N) (haway : ∃ p, s.pc p ≠ .hungry) :
    ∃ p, s.pc p ≠ .hungry ∧
      ∀ i, (s.pc p).prev.op (forks N p) = .release i → holders s i = ∅ := by
  by_cases htake : ∃ p, s.pc p = .takeRight ∨ s.pc p = .eating ∨ s.pc p = .givingUp
  · obtain ⟨p, hp⟩ := htake
    refine ⟨p, by rcases hp with h | h | h <;> simp [h], fun i hi => ?_⟩
    rcases hp with h | h | h <;> simp [h, Pc.prev, Pc.op] at hi
  push_neg at htake
  have hholds : ∀ r i, Holds s r i → s.pc r = .releaseLeft ∧ i = (forks N r).1 := fun r i hri => by
    obtain ⟨h1, h2, h3⟩ := htake r
    cases hpc : s.pc r <;> simp_all [Holds, Pc.held]
  by_cases hrl : ∃ p, s.pc p = .releaseLeft
  · obtain ⟨p, hpr, hempty⟩ := exists_second_free hN hholds hrl
    refine ⟨p, by simp [hpr], fun i hi => ?_⟩
    have hip : i = (forks N p).2 := by simpa [hpr, Pc.prev, Pc.op, eq_comm] using hi
    rwa [hip]
  · obtain ⟨p, hp⟩ := haway
    exact ⟨p, hp, fun i _ => Finset.eq_empty_of_forall_not_mem fun r hr =>
      hrl ⟨r, (hholds r i (Finset.mem_filter.1 hr).2).1⟩⟩

/-- Every table keeping the count law, over forks whose counts determine their state, is
reached from the start. -/
theorem reachable_of_conserved (hN : 2 ≤ N) (c : Counting sync) (hinj : Function.Injective c.avail)
    {init : σ} (hinit : ∀ i, c.avail init i = 1) (hs : Conserved c s) : Reachable sync init s := by
  obtain ⟨n, hn⟩ : ∃ n, fromTop s = n := ⟨_, rfl⟩
  induction n using Nat.strong_induction_on generalizing s with
  | _ n ih =>
    by_cases hhome : ∀ p, s.pc p = .hungry
    · have hx : s.syncer = init := hinj (funext fun i => by rw [avail_of_hungry hs hhome, hinit])
      rw [eq_initial hhome hx]
      exact .initial
    · push_neg at hhome
      obtain ⟨p, hp, hfree⟩ := exists_undoable hN hhome
      obtain ⟨x, hstep, hc⟩ := exists_before hN hinj hs hfree
      have hdec := fromTop_before hp x
      exact .step p (ih _ (by omega) hc rfl) hstep

theorem contractCounting_injective : Function.Injective contractCounting.avail := fun x y h =>
  Finset.ext fun i => by
    have hi := congrFun h i
    by_cases hx : i ∈ x <;> by_cases hy : i ∈ y <;> simp_all [contractCounting]

/-- Forks that keep the contract, counts determining state: the reachable tables are exactly
those that keep the count law. -/
theorem reachable_iff_conserved (hN : 2 ≤ N) (c : Counting sync)
    (hinj : Function.Injective c.avail) {init : σ} (hinit : ∀ i, c.avail init i = 1) :
    Reachable sync init s ↔ Conserved c s :=
  ⟨conserved_reachable hN c hinit, reachable_of_conserved hN c hinj hinit⟩

theorem reachable_iff_conserved_semaphore :
    2 ≤ 2 ∧ Function.Injective semaphoreCounting.avail ∧
    (∀ i, semaphoreCounting.avail (fun _ => 1) i = 1) ∧
    (Reachable semaphore (fun _ => 1) (initial (fun _ => 1) : Table 2 (Nat → Nat)) ↔
      Conserved semaphoreCounting (initial (fun _ => 1) : Table 2 (Nat → Nat))) :=
  ⟨le_refl 2, fun _ _ h => h, fun _ => rfl,
    reachable_iff_conserved (le_refl 2) semaphoreCounting (fun _ _ h => h) fun _ => rfl⟩

end ZephyrRust.Philosophers
