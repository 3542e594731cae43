import ZephyrRust.InitRace

/-!
One call of `init_once` among the others. The call never waits: each of its own
steps moves it on and no other caller's step moves it back, so once a schedule
has given it three steps it has returned, and once it has been given one it has
left its start. A caller the schedule never names is where it began.
-/
namespace ZephyrRust.CallProgress

open Object InitRace

variable {K I W : Type} {k : Nat} {w : Wrapped K I W} {args : Fin k → I}
  {s t : Race k K W} {c d : Fin k} {a : Action}

/-- How many of its three steps a call has taken; a returned call has taken them all. -/
def progress : Call W → Nat
  | .start => 0
  | .won => 1
  | .wrapped _ => 2
  | .returned _ => 3

theorem progress_le (x : Call W) : progress x ≤ 3 := by
  cases x <;> simp [progress]

theorem progress_eq_three {x : Call W} (h : progress x = 3) : ∃ r, x = .returned r := by
  cases x <;> simp_all [progress]

theorem progress_step_self (h : step w args s c = some (a, t)) :
    progress (s.call c) + 1 ≤ progress (t.call c) := by
  rcases step_cases h with ⟨hc, -, -, rfl⟩ | ⟨hc, -, -, rfl⟩ | ⟨hc, -, rfl⟩ | ⟨r, hc, -, rfl⟩ <;>
    simp [hc, progress]

theorem progress_run (s : Race k K W) (c : Fin k) (sched : List (Fin k)) :
    progress (s.call c) + sched.count c ≤ progress ((run w args s sched).1.call c) ∨
      progress ((run w args s sched).1.call c) = 3 := by
  induction sched generalizing s with
  | nil => exact .inl (Nat.le_refl _)
  | cons d cs ih =>
    have hle := progress_le (s.call c)
    rcases hstep : step w args s d with _ | ⟨b, t⟩
    · rw [run_cons_of_none hstep]
      by_cases hdc : d = c
      · subst hdc
        obtain ⟨r, hr⟩ := (step_eq_none_iff s d).1 hstep
        have h3 : progress (s.call d) = 3 := by rw [hr]; rfl
        have hfin := progress_le ((run w args s cs).1.call d)
        rcases ih s with h | h <;> omega
      · simpa [List.count_cons_of_ne (Ne.symm hdc)] using ih s
    · rw [run_cons_of_step hstep]
      have := ih t
      have hlt := progress_le (t.call c)
      by_cases hdc : d = c
      · subst hdc
        have := progress_step_self hstep
        simp only [List.count_cons_self] at this ⊢
        omega
      · rw [step_call_of_ne hstep (Ne.symm hdc)] at this
        simpa [List.count_cons_of_ne (Ne.symm hdc)] using this

theorem progress_run_eq_three (s : Race k K W) {sched : List (Fin k)} (h3 : 3 ≤ sched.count c) :
    progress ((run w args s sched).1.call c) = 3 := by
  have hp : progress (s.call c) + sched.count c ≤ progress ((run w args s sched).1.call c) ∨
      progress ((run w args s sched).1.call c) = 3 := progress_run s c sched
  have := progress_le ((run w args s sched).1.call c)
  omega

theorem run_call_ne_start (s : Race k K W) {sched : List (Fin k)} (hc : c ∈ sched) :
    (run w args s sched).1.call c ≠ .start := by
  have hp : progress (s.call c) + sched.count c ≤ progress ((run w args s sched).1.call c) ∨
      progress ((run w args s sched).1.call c) = 3 := progress_run s c sched
  have hpos := List.count_pos_iff.2 hc
  intro h
  simp only [h, progress] at hp
  omega

theorem run_call_of_not_mem (s : Race k K W) {sched : List (Fin k)} (hc : c ∉ sched) :
    (run w args s sched).1.call c = s.call c := by
  induction sched generalizing s with
  | nil => rfl
  | cons d cs ih =>
    have hcd : c ≠ d := fun h => hc (h ▸ List.mem_cons_self c cs)
    have hcs : c ∉ cs := fun h => hc (List.mem_cons_of_mem d h)
    rcases hstep : step w args s d with _ | ⟨b, t⟩
    · rw [run_cons_of_none hstep, ih s hcs]
    · rw [run_cons_of_step hstep, ih t hcs, step_call_of_ne hstep hcd]

/-- Whatever the other callers do, three steps of its own return a call: `init_once`
neither blocks nor retries. -/
theorem returned_of_three_steps (s : Race k K W) (sched : List (Fin k))
    (h3 : 3 ≤ sched.count c) : ∃ r, (run w args s sched).1.call c = .returned r :=
  progress_eq_three (progress_run_eq_three s h3)

theorem returned_of_three_steps_two_callers :
    let w : Wrapped Nat Nat Nat := ⟨fun v a => (v + a, a)⟩
    let args : Fin 2 → Nat := Fin.val
    3 ≤ [1, 0, 1, 0, 0].count (0 : Fin 2) ∧
    ∃ r, (run w args (initial 0) [1, 0, 1, 0, 0]).1.call 0 = .returned r :=
  ⟨by decide, returned_of_three_steps _ _ (by decide)⟩

end ZephyrRust.CallProgress
