import ZephyrRust.Philosophers.WaitFor

/-!
What the philosophers can still do from any reachable table, with no fairness
assumed. Some philosopher away from the top of its loop can always make its next
call: one that is not waiting for its second fork, or else, of those waiting,
the one whose first fork is largest, since a holder of its second fork would
have to hold that fork first. Each such call brings its caller one call nearer
the top of its loop, so the whole table can be brought home: every philosopher
hungry again and every fork free. From there any philosopher takes its two
forks, so none is ever shut out of eating for good. Nor is any philosopher
sure to eat: a neighbour sharing its first fork can take both of its own
forks, block it, and go round its loop back to the start, over and over.
-/
namespace ZephyrRust.Philosophers

variable {σ : Type} {N : Nat} {sync : ForkSync σ} {s t : Table N σ} {p : Fin N}

def Moves (sync : ForkSync σ) (s t : Table N σ) : Prop := ∃ p, step sync s p = some t

/-- One call by a philosopher away from the top of its loop. -/
def MovesAway (sync : ForkSync σ) (s t : Table N σ) : Prop :=
  ∃ p, s.pc p ≠ .hungry ∧ step sync s p = some t

/-- One call by a philosopher other than `p`. -/
def MovesBut (sync : ForkSync σ) (p : Fin N) (s t : Table N σ) : Prop :=
  ∃ q, q ≠ p ∧ step sync s q = some t

/-- The calls left before the top of the loop. -/
def Pc.toTop : Pc → Nat
  | hungry => 0
  | thinking => 1
  | releaseLeft => 2
  | givingUp => 3
  | eating => 4
  | takeRight => 5

theorem Pc.toTop_next {pc : Pc} (h : pc ≠ .hungry) : pc.next.toTop + 1 = pc.toTop := by
  cases pc <;> simp_all [next, toTop]

def toTop (s : Table N σ) : Nat := ∑ q, (s.pc q).toTop

/-- A call away from the top of the loop brings the table one call nearer home. -/
theorem toTop_step (h : step sync s p = some t) (hp : s.pc p ≠ .hungry) :
    toTop t + 1 = toTop s := by
  have hsum : ∑ q, (t.pc q).toTop + (s.pc p).toTop = ∑ q, (s.pc q).toTop + (t.pc p).toTop :=
    sum_add_of_eq_off (fun q => (t.pc q).toTop) (fun q => (s.pc q).toTop) fun q hq => by
      simp only [pc_step_of_ne h hq]
  have ht : t.pc p = (s.pc p).next := by rw [(step_eq_some h).1, Function.update_same]
  have hnext := Pc.toTop_next hp
  rw [ht] at hsum
  unfold toTop
  omega

theorem Reachable.moves {init : σ} (hs : Reachable sync init s)
    (h : Relation.ReflTransGen (Moves sync) s t) : Reachable sync init t := by
  induction h with
  | refl => exact hs
  | tail _ hmove ih =>
    obtain ⟨q, hq⟩ := hmove
    exact .step q ih hq

theorem moves_of_movesAway (h : Relation.ReflTransGen (MovesAway sync) s t) :
    Relation.ReflTransGen (Moves sync) s t :=
  Relation.ReflTransGen.mono (fun _ _ ⟨q, _, hq⟩ => ⟨q, hq⟩) h

theorem movesBut_of_movesAway (h : Relation.ReflTransGen (MovesAway sync) s t)
    (hp : s.pc p = .hungry) : Relation.ReflTransGen (MovesBut sync p) s t := by
  revert hp
  induction h using Relation.ReflTransGen.head_induction_on with
  | refl => exact fun _ => .refl
  | head hab _ ih =>
    intro hp
    obtain ⟨q, hq, hstep⟩ := hab
    have hqp : q ≠ p := fun h => hq (h ▸ hp)
    exact .head ⟨q, hqp, hstep⟩ (ih (by rw [pc_step_of_ne hstep (Ne.symm hqp)]; exact hp))

/-- When every fork held is the first fork of a philosopher at `pc`, the one at `pc` with
the largest first fork finds its second fork free. -/
theorem exists_second_free (hN : 2 ≤ N) {pc : Pc}
    (hholds : ∀ r i, Holds s r i → s.pc r = pc ∧ i = (forks N r).1) (hex : ∃ p, s.pc p = pc) :
    ∃ p, s.pc p = pc ∧ holders s (forks N p).2 = ∅ := by
  obtain ⟨p₀, hp₀⟩ := hex
  obtain ⟨p, hp, hmax⟩ := Finset.exists_max_image (Finset.univ.filter fun q => s.pc q = pc)
    (fun q => (forks N q).1) ⟨p₀, by simp [hp₀]⟩
  refine ⟨p, (Finset.mem_filter.1 hp).2, Finset.eq_empty_of_forall_not_mem fun r hr => ?_⟩
  obtain ⟨hrp, hir⟩ := hholds r _ (Finset.mem_filter.1 hr).2
  have hle := hmax r (by simp [hrp])
  have hlt : (forks N p).1 < (forks N p).2 := forks_lt hN
  omega

section Counting

variable (hN : 2 ≤ N) (c : Counting sync) {init : σ} (hinit : ∀ i, c.avail init i = 1)
include hN c hinit

/-- Away from home some philosopher away from the top of its loop can make its next call. -/
theorem exists_away_unblocked (hs : Reachable sync init s) (haway : ∃ p, s.pc p ≠ .hungry) :
    ∃ p, s.pc p ≠ .hungry ∧ ¬ Blocked sync s p := by
  by_cases hfree : ∃ p, s.pc p ≠ .hungry ∧ s.pc p ≠ .takeRight
  · obtain ⟨p, hh, ht⟩ := hfree
    refine ⟨p, hh, fun ⟨i, hi, _⟩ => ?_⟩
    cases hpc : s.pc p <;> simp_all [Pc.op]
  push_neg at hfree
  have hholds : ∀ r i, Holds s r i → s.pc r = .takeRight ∧ i = (forks N r).1 := fun r i hri => by
    have hrt : s.pc r = .takeRight := hfree r fun h => by simp [Holds, h, Pc.held] at hri
    exact ⟨hrt, by simpa [Holds, hrt, Pc.held] using hri⟩
  obtain ⟨p₀, hp₀⟩ := haway
  obtain ⟨p, hpt, hempty⟩ := exists_second_free hN hholds ⟨p₀, hfree p₀ hp₀⟩
  refine ⟨p, by simp [hpt], fun hb => ?_⟩
  obtain ⟨r, i, hi, hri⟩ := waitsFor_of_blocked hN c hinit hs hb
  have hip : i = (forks N p).2 := by simpa [hpt, Pc.op, eq_comm] using hi.1
  subst hip
  exact Finset.not_mem_empty r (hempty ▸ Finset.mem_filter.2 ⟨Finset.mem_univ r, hri⟩)

/-- From every reachable table some schedule brings every philosopher back to the top of
its loop. -/
theorem exists_moves_hungry (hs : Reachable sync init s) :
    ∃ t, Relation.ReflTransGen (MovesAway sync) s t ∧ ∀ p, t.pc p = .hungry := by
  obtain ⟨n, hn⟩ : ∃ n, toTop s = n := ⟨_, rfl⟩
  induction n using Nat.strong_induction_on generalizing s with
  | _ n ih =>
    by_cases hhome : ∀ p, s.pc p = .hungry
    · exact ⟨s, .refl, hhome⟩
    · push_neg at hhome
      obtain ⟨p, hp, hb⟩ := exists_away_unblocked hN c hinit hs hhome
      obtain ⟨t, ht⟩ := Option.ne_none_iff_exists'.1 (mt step_eq_none_iff_blocked.1 hb)
      have hdec := toTop_step ht hp
      obtain ⟨u, hu, hhungry⟩ := ih (toTop t) (by omega) (hs.step p ht) rfl
      exact ⟨u, .head ⟨p, hp, ht⟩ hu, hhungry⟩

end Counting

theorem avail_of_hungry {c : Counting sync} (hc : Conserved c s) (h : ∀ p, s.pc p = .hungry)
    (i : Nat) : c.avail s.syncer i = 1 := by
  have hnone : holders s i = ∅ :=
    Finset.filter_eq_empty_iff.2 fun p _ => by simp [Holds, h p, Pc.held]
  simpa [hnone] using hc i

/-- Forks that keep the contract: from every reachable table some schedule brings every
philosopher back to the top of its loop with every fork free. -/
theorem home_reachable (hN : 2 ≤ N) (c : Counting sync) {init : σ}
    (hinit : ∀ i, c.avail init i = 1) (hs : Reachable sync init s) :
    ∃ t, Relation.ReflTransGen (Moves sync) s t ∧ (∀ p, t.pc p = .hungry) ∧
      ∀ i, c.avail t.syncer i = 1 := by
  obtain ⟨t, hst, hhungry⟩ := exists_moves_hungry hN c hinit hs
  have hmoves := moves_of_movesAway hst
  exact ⟨t, hmoves, hhungry,
    avail_of_hungry (conserved_reachable hN c hinit (hs.moves hmoves)) hhungry⟩

theorem home_reachable_semaphore :
    let t : Table 2 (Nat → Nat) := ⟨Function.update (Function.update (Function.update
      (fun _ => .hungry) 0 .takeRight) 0 .eating) 0 .givingUp,
      semaphore.take (semaphore.take (fun _ => 1) 0) 1⟩
    t.pc 0 ≠ .hungry ∧
    2 ≤ 2 ∧ (∀ i, semaphoreCounting.avail (fun _ => 1) i = 1) ∧
    Reachable semaphore (fun _ => 1) t ∧
    ∃ u, Relation.ReflTransGen (Moves semaphore) t u ∧
      (∀ p, u.pc p = .hungry) ∧ ∀ i, semaphoreCounting.avail u.syncer i = 1 :=
  ⟨by decide, le_refl 2, fun _ => rfl, .step 0 (.step 0 (.step 0 .initial rfl) rfl) rfl,
    home_reachable (le_refl 2) semaphoreCounting (fun _ => rfl)
      (.step 0 (.step 0 (.step 0 .initial rfl) rfl) rfl)⟩

theorem step_of_take {c : Counting sync} {i : Nat} (hop : (s.pc p).op (forks N p) = .take i)
    (hpos : 0 < c.avail s.syncer i) :
    step sync s p = some ⟨Function.update s.pc p (s.pc p).next, sync.take s.syncer i⟩ := by
  simp [step, hop, ForkSync.perform, (c.ready_iff _ _).2 hpos]

/-- From the top of its loop, with both forks free, a philosopher takes them in two calls. -/
theorem takes_both (hN : 2 ≤ N) {c : Counting sync} (hp : s.pc p = .hungry)
    (h1 : c.avail s.syncer (forks N p).1 = 1) (h2 : c.avail s.syncer (forks N p).2 = 1) :
    ∃ t, Relation.ReflTransGen (fun a b => step sync a p = some b) s t ∧ t.pc p = .eating ∧
      (∀ q, q ≠ p → t.pc q = s.pc q) ∧
      c.avail t.syncer (forks N p).1 = 0 ∧ c.avail t.syncer (forks N p).2 = 0 := by
  have hne : (forks N p).1 ≠ (forks N p).2 := forks_ne hN
  have hs₁ := step_of_take (hp ▸ rfl : (s.pc p).op (forks N p) = .take (forks N p).1)
    (by rw [h1]; exact Nat.one_pos)
  set u : Table N σ := ⟨Function.update s.pc p (s.pc p).next, sync.take s.syncer (forks N p).1⟩
  have hu : u.pc p = .takeRight := by simp [u, hp, Pc.next]
  have hu₂ : c.avail u.syncer (forks N p).2 = 1 := by
    simp only [u, c.avail_take, Function.update_noteq hne.symm, h2]
  have hs₂ := step_of_take (hu ▸ rfl : (u.pc p).op (forks N p) = .take (forks N p).2)
    (by rw [hu₂]; exact Nat.one_pos)
  refine ⟨_, .head hs₁ (.single hs₂), ?_, fun q hq => ?_, ?_, ?_⟩
  · show Function.update u.pc p (u.pc p).next p = .eating
    rw [Function.update_same, hu]
    rfl
  · simp [u, Function.update_noteq hq]
  · simp [u, c.avail_take, hne, h1]
  · simp [u, c.avail_take, hu₂]

/-- Forks that keep the contract: from every reachable table, any philosopher can be
scheduled to eat. -/
theorem can_eat (hN : 2 ≤ N) (c : Counting sync) {init : σ}
    (hinit : ∀ i, c.avail init i = 1) (hs : Reachable sync init s) (p : Fin N) :
    ∃ t, Relation.ReflTransGen (Moves sync) s t ∧ t.pc p = .eating := by
  obtain ⟨t, hst, hhungry⟩ := exists_moves_hungry hN c hinit hs
  have hmoves := moves_of_movesAway hst
  have hfree := avail_of_hungry (conserved_reachable hN c hinit (hs.moves hmoves)) hhungry
  obtain ⟨u, htu, heat, -⟩ := takes_both hN (hhungry p) (hfree _) (hfree _)
  exact ⟨u, hmoves.trans (Relation.ReflTransGen.mono (fun _ _ h => ⟨p, h⟩) htu), heat⟩

theorem can_eat_semaphore :
    2 ≤ 2 ∧ (∀ i, semaphoreCounting.avail (fun _ => 1) i = 1) ∧
    Reachable semaphore (fun _ => 1) (initial (fun _ => 1) : Table 2 (Nat → Nat)) ∧
    ∃ t, Relation.ReflTransGen (Moves semaphore) (initial (fun _ => 1) : Table 2 (Nat → Nat)) t ∧
      t.pc 1 = .eating :=
  ⟨le_refl 2, fun _ => rfl, .initial,
    can_eat (le_refl 2) semaphoreCounting (fun _ => rfl) .initial 1⟩

theorem eq_initial {init : σ} (hpc : ∀ p, s.pc p = .hungry) (hx : s.syncer = init) :
    s = initial init := by
  obtain ⟨pc, x⟩ := s
  obtain rfl : pc = fun _ => .hungry := funext hpc
  obtain rfl : x = init := hx
  rfl

/-- Every philosopher's first fork is also a fork of another philosopher. -/
theorem exists_sharer (hN : 2 ≤ N) (p : Fin N) :
    ∃ q, q ≠ p ∧ ((forks N p).1 = (forks N q).1 ∨ (forks N p).1 = (forks N q).2) := by
  have hp := p.isLt
  have hq : (if p.val = 0 then N - 1 else if p.val = N - 1 then 0 else p.val - 1) < N := by
    split_ifs <;> omega
  obtain ⟨q, hq⟩ : ∃ q : Fin N,
      q.val = if p.val = 0 then N - 1 else if p.val = N - 1 then 0 else p.val - 1 := ⟨⟨_, hq⟩, rfl⟩
  refine ⟨q, fun h => by subst h; split_ifs at hq <;> omega, ?_⟩
  unfold forks
  split_ifs at hq ⊢ <;> dsimp only <;> omega

/-- Forks that keep the contract, counts determining state: calls by the others alone can
block any philosopher and return to the start, round after round. -/
theorem can_starve (hN : 2 ≤ N) (c : Counting sync) (hinj : Function.Injective c.avail)
    {init : σ} (hinit : ∀ i, c.avail init i = 1) (p : Fin N) :
    ∃ t, Relation.ReflTransGen (MovesBut sync p) (initial init) t ∧ Blocked sync t p ∧
      Relation.ReflTransGen (MovesBut sync p) t (initial init) := by
  obtain ⟨q, hqp, hshare⟩ := exists_sharer hN p
  obtain ⟨t, hqt, -, hframe, h1, h2⟩ :=
    takes_both hN (rfl : (initial init : Table N σ).pc q = .hungry) (hinit _) (hinit _)
  have hpt : t.pc p = .hungry := hframe p (Ne.symm hqp)
  have ht : Reachable sync init t :=
    Reachable.moves .initial (Relation.ReflTransGen.mono (fun _ _ h => ⟨q, h⟩) hqt)
  have hzero : c.avail t.syncer (forks N p).1 = 0 := by
    rcases hshare with h | h <;> rw [h] <;> assumption
  have hblocked : Blocked sync t p :=
    ⟨(forks N p).1, by rw [hpt]; rfl,
      Bool.eq_false_iff.2 fun h => by have := (c.ready_iff _ _).1 h; omega⟩
  refine ⟨t, Relation.ReflTransGen.mono (fun _ _ h => ⟨q, hqp, h⟩) hqt, hblocked, ?_⟩
  obtain ⟨u, htu, hhungry⟩ := exists_moves_hungry hN c hinit ht
  have hfree := avail_of_hungry (conserved_reachable hN c hinit (ht.moves (moves_of_movesAway htu)))
    hhungry
  rw [← eq_initial hhungry (hinj (funext fun i => by rw [hfree, hinit]))]
  exact movesBut_of_movesAway htu hpt

theorem can_starve_semaphore :
    2 ≤ 2 ∧ Function.Injective semaphoreCounting.avail ∧
    (∀ i, semaphoreCounting.avail (fun _ => 1) i = 1) ∧
    ∃ t, Relation.ReflTransGen (MovesBut semaphore 1) (initial (fun _ => 1) : Table 2 (Nat → Nat)) t ∧
      Blocked semaphore t 1 ∧
      Relation.ReflTransGen (MovesBut semaphore 1) t (initial (fun _ => 1) : Table 2 (Nat → Nat)) :=
  ⟨le_refl 2, fun _ _ h => h, fun _ => rfl,
    can_starve (le_refl 2) semaphoreCounting (fun _ _ h => h) (fun _ => rfl) 1⟩

end ZephyrRust.Philosophers
