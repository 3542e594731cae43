import Mathlib.Algebra.BigOperators.Group.Finset

/-!
The dining philosophers of `samples/philosophers/src/lib.rs`. `phil_thread` picks
two forks, the last philosopher's pair reversed, and then loops: take the first
fork, take the second, eat, release the second, release the first, think. The
forks sit behind the `ForkSync` trait, given here by when `take` returns and what
`take` and `release` do to the forks' state. A `Table` holds every philosopher's
place in its loop and that state; any philosopher may make its next call, so the
runs are all interleavings. The number of philosophers `N` is a parameter; the
sample fixes it to `NUM_PHIL`.
-/
namespace ZephyrRust.Philosophers

/-- `NUM_PHIL`. -/
def numPhil : Nat := 6

/-- The forks of philosopher `n` of `N`, as `phil_thread` picks them. -/
def forks (N n : Nat) : Nat × Nat :=
  if n = N - 1 then (0, n) else (n, n + 1)

/-- The reversed pair makes every philosopher take its smaller fork first. -/
theorem forks_lt {N n : Nat} (hN : 2 ≤ N) : (forks N n).1 < (forks N n).2 := by
  unfold forks
  split <;> dsimp only <;> omega

theorem forks_ne {N n : Nat} (hN : 2 ≤ N) : (forks N n).1 ≠ (forks N n).2 :=
  Nat.ne_of_lt (forks_lt hN)

theorem forks_lt_num {N n : Nat} (hn : n < N) : (forks N n).1 < N ∧ (forks N n).2 < N := by
  unfold forks
  split <;> dsimp only <;> omega

/-- The calls of the loop body that touch the forks; the two `sleep`s stand for eating
and thinking. -/
inductive Op
  | take (index : Nat)
  | release (index : Nat)
  | sleep

/-- Where a philosopher stands in its loop, named by the call it makes next. -/
inductive Pc
  | hungry
  | takeRight
  | eating
  | givingUp
  | releaseLeft
  | thinking
  deriving DecidableEq

namespace Pc

/-- The call made at each place, for the pair of forks `f`. -/
def op (f : Nat × Nat) : Pc → Op
  | hungry => .take f.1
  | takeRight => .take f.2
  | eating => .sleep
  | givingUp => .release f.2
  | releaseLeft => .release f.1
  | thinking => .sleep

def next : Pc → Pc
  | hungry => takeRight
  | takeRight => eating
  | eating => givingUp
  | givingUp => releaseLeft
  | releaseLeft => thinking
  | thinking => hungry

/-- The forks held at each place: the first from its `take` to the last `release`, the
second from its `take` to the first. -/
def held (f : Nat × Nat) : Pc → List Nat
  | hungry | thinking => []
  | takeRight | releaseLeft => [f.1]
  | eating | givingUp => [f.1, f.2]

end Pc

/-- What a call does to the list of forks its caller holds. -/
def Op.apply : Op → List Nat → List Nat
  | .take i, h => h ++ [i]
  | .release i, h => h.erase i
  | .sleep, h => h

namespace Pc

variable {f : Nat × Nat}

theorem held_next (hf : f.1 ≠ f.2) (pc : Pc) : pc.next.held f = (pc.op f).apply (pc.held f) := by
  cases pc <;> simp [next, held, op, Op.apply, List.erase_cons, hf]

theorem not_mem_held_of_take (hf : f.1 ≠ f.2) {pc : Pc} {i : Nat} (h : pc.op f = .take i) :
    i ∉ pc.held f := by
  cases pc <;> simp only [op, held, Op.take.injEq, reduceCtorEq] at h ⊢ <;> subst h
  · exact List.not_mem_nil _
  · simpa using Ne.symm hf

theorem mem_held_of_release {pc : Pc} {i : Nat} (h : pc.op f = .release i) : i ∈ pc.held f := by
  cases pc <;> simp_all [op, held]

theorem held_nodup (hf : f.1 ≠ f.2) (pc : Pc) : (pc.held f).Nodup := by
  cases pc <;> simp [held, hf]

theorem lt_of_take (hlt : f.1 < f.2) {pc : Pc} {i j : Nat} (h : pc.op f = .take j)
    (hi : i ∈ pc.held f) : i < j := by
  cases pc <;> simp_all [op, held]

end Pc

/-- The `ForkSync` trait on a forks' state `σ`; the blocking `take` is given by `ready`, the
states in which it returns. -/
structure ForkSync (σ : Type) where
  ready : σ → Nat → Bool
  take : σ → Nat → σ
  release : σ → Nat → σ

variable {σ : Type} {N : Nat}

/-- One call on the forks: the state after it, or `none` while a `take` blocks. -/
def ForkSync.perform (sync : ForkSync σ) (x : σ) : Op → Option σ
  | .take i => if sync.ready x i then some (sync.take x i) else none
  | .release i => some (sync.release x i)
  | .sleep => some x

theorem ForkSync.perform_take_eq_some {sync : ForkSync σ} {x y : σ} {i : Nat}
    (h : sync.perform x (.take i) = some y) : sync.ready x i = true ∧ y = sync.take x i := by
  simp only [ForkSync.perform] at h
  split at h
  · exact ⟨‹_›, (Option.some.inj h).symm⟩
  · cases h

/-- Every philosopher's place in its loop, and the state behind the `ForkSync`. -/
structure Table (N : Nat) (σ : Type) where
  pc : Fin N → Pc
  syncer : σ

/-- Philosopher `p` makes its next call; `none` while it is blocked in a `take`. -/
def step (sync : ForkSync σ) (s : Table N σ) (p : Fin N) : Option (Table N σ) :=
  (sync.perform s.syncer ((s.pc p).op (forks N p))).map
    fun x => ⟨Function.update s.pc p (s.pc p).next, x⟩

/-- Every philosopher just started, hungry, and the forks in `init`. -/
def initial (init : σ) : Table N σ := ⟨fun _ => .hungry, init⟩

/-- The tables reachable from `initial init` by any interleaving of steps. -/
inductive Reachable (sync : ForkSync σ) (init : σ) : Table N σ → Prop
  | initial : Reachable sync init (initial init)
  | step {s t : Table N σ} (p : Fin N) :
      Reachable sync init s → Philosophers.step sync s p = some t → Reachable sync init t

def Holds (s : Table N σ) (p : Fin N) (i : Nat) : Prop := i ∈ (s.pc p).held (forks N p)

instance (s : Table N σ) (p : Fin N) (i : Nat) : Decidable (Holds s p i) :=
  inferInstanceAs (Decidable (i ∈ _))

def holders (s : Table N σ) (i : Nat) : Finset (Fin N) := Finset.univ.filter (Holds s · i)

variable {sync : ForkSync σ} {s t : Table N σ} {p : Fin N}

theorem step_eq_some (h : step sync s p = some t) :
    t.pc = Function.update s.pc p (s.pc p).next ∧
      sync.perform s.syncer ((s.pc p).op (forks N p)) = some t.syncer := by
  simp only [step, Option.map_eq_some'] at h
  obtain ⟨x, hx, rfl⟩ := h
  exact ⟨rfl, hx⟩

theorem pc_step_of_ne (h : step sync s p = some t) {q : Fin N} (hq : q ≠ p) :
    t.pc q = s.pc q := by
  rw [(step_eq_some h).1, Function.update_noteq hq]

/-- Functions that differ only at `p` differ in their sums by their values there. -/
theorem sum_add_of_eq_off (g h : Fin N → Nat) (hgh : ∀ q, q ≠ p → g q = h q) :
    ∑ q, g q + h p = ∑ q, h q + g p := by
  have hrest : ∑ q ∈ Finset.univ \ {p}, g q = ∑ q ∈ Finset.univ \ {p}, h q :=
    Finset.sum_congr rfl fun q hq => hgh q (by simpa using hq)
  rw [Finset.sum_eq_add_sum_diff_singleton (Finset.mem_univ p) g,
    Finset.sum_eq_add_sum_diff_singleton (Finset.mem_univ p) h, hrest]
  omega

end ZephyrRust.Philosophers
