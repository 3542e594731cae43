import Mathlib.Data.Finset.Max
import ZephyrRust.Philosophers.Forks

/-!
The wait-for graph of a table: `p` waits for `q` when `p` is blocked in a `take`
of a fork that `q` holds. Every philosopher takes its smaller fork first, so one
that is itself blocked holds only forks below the one it waits on. Along every
path of the graph the fork waited on therefore grows, and the graph has no
cycle. With forks that keep the contract a blocked fork always has a holder, so
if every philosopher were blocked, the one waiting on the largest fork would
wait for one waiting on a larger fork.
-/
namespace ZephyrRust.Philosophers

variable {σ : Type} {N : Nat} {sync : ForkSync σ} {s : Table N σ} {p q r : Fin N} {i : Nat}

/-- Philosopher `p` is blocked in its `take` of fork `i`. -/
def BlockedOn (sync : ForkSync σ) (s : Table N σ) (p : Fin N) (i : Nat) : Prop :=
  (s.pc p).op (forks N p) = .take i ∧ sync.ready s.syncer i = false

def Blocked (sync : ForkSync σ) (s : Table N σ) (p : Fin N) : Prop := ∃ i, BlockedOn sync s p i

/-- The wait-for graph: `p` is blocked on a fork that `q` holds. -/
def WaitsFor (sync : ForkSync σ) (s : Table N σ) (p q : Fin N) : Prop :=
  ∃ i, BlockedOn sync s p i ∧ Holds s q i

/-- The fork that `p`'s next call takes, when that call is a `take`. -/
def awaited (s : Table N σ) (p : Fin N) : Nat :=
  match (s.pc p).op (forks N p) with
  | .take i => i
  | _ => 0

theorem awaited_of_blockedOn (h : BlockedOn sync s p i) : awaited s p = i := by
  simp [awaited, h.1]

theorem awaited_lt (hN : 2 ≤ N) (hpq : WaitsFor sync s p q) (hqr : WaitsFor sync s q r) :
    awaited s p < awaited s q := by
  obtain ⟨i, hpi, hqi⟩ := hpq
  obtain ⟨j, hqj, -⟩ := hqr
  rw [awaited_of_blockedOn hpi, awaited_of_blockedOn hqj]
  exact Pc.lt_of_take (forks_lt hN) hqj.1 hqi

theorem awaited_lt_of_transGen (hN : 2 ≤ N) (h : Relation.TransGen (WaitsFor sync s) p q)
    (hq : ∃ r, WaitsFor sync s q r) : awaited s p < awaited s q := by
  obtain ⟨r, hqr⟩ := hq
  induction h generalizing r with
  | single hpq => exact awaited_lt hN hpq hqr
  | tail _ hbq ih => exact (ih _ hbq).trans (awaited_lt hN hbq hqr)

theorem waitsFor_acyclic (hN : 2 ≤ N) (p : Fin N) :
    ¬ Relation.TransGen (WaitsFor sync s) p p := by
  intro h
  obtain ⟨b, hpb, -⟩ := Relation.TransGen.head'_iff.1 h
  exact lt_irrefl _ (awaited_lt_of_transGen hN h ⟨b, hpb⟩)

theorem waitsFor_of_blocked (hN : 2 ≤ N) (c : Counting sync) {init : σ}
    (hinit : ∀ i, c.avail init i = 1) (hs : Reachable sync init s) (hp : Blocked sync s p) :
    ∃ q, WaitsFor sync s p q := by
  obtain ⟨i, hi⟩ := hp
  have hzero : c.avail s.syncer i = 0 := by
    simpa [hi.2] using (c.ready_iff s.syncer i).not
  have hsum := conserved_reachable hN c hinit hs i
  obtain ⟨q, hq⟩ := Finset.card_pos.1 (by omega : 0 < (holders s i).card)
  exact ⟨q, i, hi, by simpa [holders] using hq⟩

/-- If all were blocked, the one waiting on the largest fork would wait on a larger one. -/
theorem not_all_blocked (hN : 2 ≤ N) (c : Counting sync) {init : σ}
    (hinit : ∀ i, c.avail init i = 1) (hs : Reachable sync init s) :
    ¬ ∀ p, Blocked sync s p := by
  intro hall
  have hwait : ∀ p, ∃ q, WaitsFor sync s p q :=
    fun p => waitsFor_of_blocked hN c hinit hs (hall p)
  obtain ⟨p, -, hmax⟩ :=
    Finset.exists_max_image Finset.univ (awaited s) ⟨⟨0, by omega⟩, Finset.mem_univ _⟩
  obtain ⟨q, hpq⟩ := hwait p
  obtain ⟨r, hqr⟩ := hwait q
  exact absurd (hmax q (Finset.mem_univ q)) (not_le.2 (awaited_lt hN hpq hqr))

theorem step_eq_none_iff_blocked : step sync s p = none ↔ Blocked sync s p := by
  simp only [step, Option.map_eq_none', Blocked, BlockedOn]
  rcases (s.pc p).op (forks N p) with i | i | _ <;> simp [ForkSync.perform]

/-- Forks that keep the contract: every reachable table's wait-for graph is acyclic, and
some philosopher can make its next call. -/
theorem wait_for_graph_acyclic (hN : 2 ≤ N) (c : Counting sync) {init : σ}
    (hinit : ∀ i, c.avail init i = 1) (hs : Reachable sync init s) :
    (∀ p, ¬ Relation.TransGen (WaitsFor sync s) p p) ∧ ¬ ∀ p, step sync s p = none :=
  ⟨waitsFor_acyclic hN, fun hall =>
    not_all_blocked hN c hinit hs fun p => step_eq_none_iff_blocked.1 (hall p)⟩

theorem wait_for_graph_acyclic_contract :
    let t : Table 2 (Finset Nat) := ⟨Function.update (fun _ => .hungry) 0 .takeRight, contract.take ∅ 0⟩
    WaitsFor contract t 1 0 ∧
    2 ≤ 2 ∧ (∀ i, contractCounting.avail ∅ i = 1) ∧ Reachable contract ∅ t ∧
    (∀ p, ¬ Relation.TransGen (WaitsFor contract t) p p) ∧ ¬ ∀ p, step contract t p = none :=
  have hinit : ∀ i, contractCounting.avail ∅ i = 1 := fun i => by simp [contractCounting]
  ⟨⟨0, ⟨rfl, by decide⟩, by decide⟩, le_refl 2, hinit, .step 0 .initial rfl,
    wait_for_graph_acyclic (le_refl 2) contractCounting hinit (.step 0 .initial rfl)⟩

/-- No deadlock: in every reachable table some philosopher can make its next call. -/
theorem exists_step (hN : 2 ≤ N) (c : Counting sync) {init : σ}
    (hinit : ∀ i, c.avail init i = 1) (hs : Reachable sync init s) :
    ∃ p t, step sync s p = some t := by
  by_contra h
  refine not_all_blocked hN c hinit hs fun p => step_eq_none_iff_blocked.1 ?_
  exact Option.eq_none_iff_forall_not_mem.2 fun t ht => h ⟨p, t, ht⟩

theorem exists_step_semaphore :
    2 ≤ 2 ∧ (∀ i, semaphoreCounting.avail (fun _ => 1) i = 1) ∧
    Reachable semaphore (fun _ => 1) (initial (fun _ => 1) : Table 2 (Nat → Nat)) ∧
    ∃ p t, step semaphore (initial (fun _ => 1) : Table 2 (Nat → Nat)) p = some t :=
  ⟨le_refl 2, fun _ => rfl, .initial, exists_step (le_refl 2) semaphoreCounting (fun _ => rfl) .initial⟩

end ZephyrRust.Philosophers
