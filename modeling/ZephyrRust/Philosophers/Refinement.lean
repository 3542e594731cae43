import ZephyrRust.Philosophers.Forks

/-!
Every fork implementation that keeps the `ForkSync` contract, the semaphores
included, behaves step for step as the contract itself. The contract sees of a
table the philosophers' places and the forks below `N` whose count is zero. A
philosopher's call blocks in the implementation exactly when it blocks in the
contract, and otherwise both reach tables that the contract sees alike. So every
reachable table of the implementation is seen as a reachable table of the
contract.
-/
namespace ZephyrRust.Philosophers

variable {σ : Type} {N : Nat} {sync : ForkSync σ} {s t : Table N σ} {p : Fin N}

/-- The held forks the contract sees in an implementation's state: those below `N` with
no take left. -/
def heldOf (c : Counting sync) (N : Nat) (x : σ) : Finset Nat :=
  (Finset.range N).filter fun i => c.avail x i = 0

/-- What the contract sees of a table. -/
def abstraction (c : Counting sync) (s : Table N σ) : Table N (Finset Nat) :=
  ⟨s.pc, heldOf c N s.syncer⟩

theorem mem_heldOf {c : Counting sync} {x : σ} {i : Nat} :
    i ∈ heldOf c N x ↔ i < N ∧ c.avail x i = 0 := by
  simp [heldOf]

theorem heldOf_update {c : Counting sync} {x y : σ} {i v : Nat} (hi : i < N)
    (hy : c.avail y = Function.update (c.avail x) i v) :
    heldOf c N y = if v = 0 then insert i (heldOf c N x) else (heldOf c N x).erase i := by
  ext j
  by_cases hji : j = i
  · subst hji
    split <;> simp_all [mem_heldOf]
  · split <;> simp [mem_heldOf, hy, hji, Function.update_noteq hji]

/-- One call, seen by the contract: it blocks in both or in neither, and leaves states seen
alike. -/
theorem perform_heldOf (c : Counting sync) (x : σ) {op : Op}
    (hidx : ∀ i, (op = .take i ∨ op = .release i) → i < N)
    (hle : ∀ i, op = .take i → c.avail x i ≤ 1)
    (hrel : ∀ i, op = .release i → c.avail x i = 0) :
    (sync.perform x op).map (heldOf c N) = contract.perform (heldOf c N x) op := by
  cases op with
  | take i =>
    have hi := hidx i (.inl rfl)
    have hl := hle i rfl
    by_cases hr : sync.ready x i = true
    · have hpos := (c.ready_iff x i).1 hr
      have hnot : i ∉ heldOf c N x := by simp [mem_heldOf]; omega
      simp only [ForkSync.perform, hr, if_true, Option.map_some', contract, hnot,
        decide_not, decide_False, Bool.not_false]
      rw [heldOf_update hi (c.avail_take x i), if_pos (by omega)]
    · have hzero : c.avail x i = 0 := by
        by_contra h
        exact hr ((c.ready_iff x i).2 (by omega))
      have hmem : i ∈ heldOf c N x := mem_heldOf.2 ⟨hi, hzero⟩
      simp [ForkSync.perform, hr, contract, hmem]
  | release i =>
    simp only [ForkSync.perform, Option.map_some', contract]
    rw [heldOf_update (hidx i (.inr rfl)) (c.avail_release x i (hrel i rfl)), if_neg one_ne_zero]
  | sleep => rfl

theorem Pc.index_of_op {f : Nat × Nat} {pc : Pc} {i : Nat}
    (h : pc.op f = .take i ∨ pc.op f = .release i) : i = f.1 ∨ i = f.2 := by
  cases pc <;> simp_all [Pc.op, eq_comm]

/-- The contract simulates the implementation step for step, blocking included. -/
theorem step_abstraction {c : Counting sync} (hs : Conserved c s) (p : Fin N) :
    (step sync s p).map (abstraction c) = step contract (abstraction c s) p := by
  have hperf : (sync.perform s.syncer ((s.pc p).op (forks N p))).map (heldOf c N) =
      contract.perform (heldOf c N s.syncer) ((s.pc p).op (forks N p)) := by
    refine perform_heldOf c s.syncer (fun i hi => ?_) (fun i _ => ?_) (fun i hi => ?_)
    · rcases Pc.index_of_op hi with rfl | rfl
      exacts [(forks_lt_num p.isLt).1, (forks_lt_num p.isLt).2]
    · have := hs i
      omega
    · exact avail_eq_zero_of_holds hs (Pc.mem_held_of_release hi)
  simp only [step, abstraction, Option.map_map]
  rw [← hperf, Option.map_map]
  rfl

theorem reachable_abstraction (hN : 2 ≤ N) (c : Counting sync) {init : σ}
    (hinit : ∀ i, c.avail init i = 1) (hs : Reachable sync init s) :
    Reachable contract ∅ (abstraction c s) := by
  induction hs with
  | initial =>
    have hempty : heldOf c N init = ∅ := by simp [heldOf, hinit]
    simp only [abstraction, initial, hempty]
    exact .initial
  | step p hr h ih =>
    have hsim := step_abstraction (conserved_reachable hN c hinit hr) p
    rw [h, Option.map_some'] at hsim
    exact .step p ih hsim.symm

/-- An implementation that keeps the contract, every fork free at the start, is simulated
step for step by the bare contract, blocking included. -/
theorem refines_contract (hN : 2 ≤ N) (c : Counting sync) {init : σ}
    (hinit : ∀ i, c.avail init i = 1) (hs : Reachable sync init s) :
    Reachable contract ∅ (abstraction c s) ∧
      ∀ p, (step sync s p).map (abstraction c) = step contract (abstraction c s) p :=
  ⟨reachable_abstraction hN c hinit hs,
    step_abstraction (conserved_reachable hN c hinit hs)⟩

theorem refines_contract_semaphore :
    let t : Table 2 (Nat → Nat) :=
      ⟨Function.update (fun _ => .hungry) 0 .takeRight, semaphore.take (fun _ => 1) 0⟩
    step semaphore t 1 = none ∧
    2 ≤ 2 ∧ (∀ i, semaphoreCounting.avail (fun _ => 1) i = 1) ∧
    Reachable semaphore (fun _ => 1) t ∧
    Reachable contract ∅ (abstraction semaphoreCounting t) ∧
    ∀ p, (step semaphore t p).map (abstraction semaphoreCounting) =
      step contract (abstraction semaphoreCounting t) p :=
  ⟨rfl, le_refl 2, fun _ => rfl, .step 0 .initial rfl,
    refines_contract (le_refl 2) semaphoreCounting (fun _ => rfl) (.step 0 .initial rfl)⟩

end ZephyrRust.Philosophers
