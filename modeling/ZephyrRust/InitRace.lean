import ZephyrRust.Object

/-!
`init_once` raced by any number of callers on one slot. Each call is three atomic
steps: the `compare_exchange`, the `get_wrapped` on the cell and the `store` of
`KOBJ_INITIALIZED`; a failed `compare_exchange` returns `None` at once. A schedule
says whose step comes next, so every interleaving is the run of some schedule.
One invariant, `Inv`, describes every reachable state: either no caller has
started, or exactly one caller has won the `compare_exchange` and the word and
the cell are those of its progress.
-/
namespace ZephyrRust.InitRace

open Object

/-- How far one `init_once` call has got. -/
inductive Call (W : Type)
  | start
  | won
  | wrapped (result : W)
  | returned (result : Option W)

/-- The atomic actions of a call, as they appear in a run's log. -/
inductive Action
  | compareExchange (ok : Bool)
  | getWrapped
  | store
  deriving DecidableEq

/-- One slot and the calls of `k` callers. -/
structure Race (k : Nat) (K W : Type) where
  obj : StaticKernelObject K
  call : Fin k → Call W

variable {K I W : Type} {k : Nat} (w : Wrapped K I W) (zeroed : K) (args : Fin k → I)

def initial : Race k K W := ⟨new zeroed, fun _ => .start⟩

/-- The next atomic step of caller `c`, which passes `args c`; `none` once its call
has returned. -/
def step (s : Race k K W) (c : Fin k) : Option (Action × Race k K W) :=
  match s.call c with
  | .start =>
    match compareExchange s.obj.init kobjUninitialized kobjIniting with
    | (init, .ok _) =>
      some (.compareExchange true, ⟨{ s.obj with init }, Function.update s.call c .won⟩)
    | (_, .error _) =>
      some (.compareExchange false, ⟨s.obj, Function.update s.call c (.returned none)⟩)
  | .won =>
    let (value, result) := w.getWrapped s.obj.value (args c)
    some (.getWrapped, ⟨{ s.obj with value }, Function.update s.call c (.wrapped result)⟩)
  | .wrapped result =>
    some (.store, ⟨{ s.obj with init := kobjInitialized },
      Function.update s.call c (.returned (some result))⟩)
  | .returned _ => none

/-- Runs a schedule, one atomic step of the named caller per entry, and logs the actions. -/
def run : Race k K W → List (Fin k) → Race k K W × List (Fin k × Action)
  | s, [] => (s, [])
  | s, c :: cs =>
    match step w args s c with
    | some (a, t) => ((run t cs).1, (c, a) :: (run t cs).2)
    | none => run s cs

def after (sched : List (Fin k)) : Race k K W := (run w args (initial zeroed) sched).1

def log (sched : List (Fin k)) : List (Fin k × Action) := (run w args (initial zeroed) sched).2

def Won : Call W → Prop
  | .won | .wrapped _ | .returned (some _) => True
  | _ => False

/-- The word and the cell that go with the winner's progress, `a` its initializer. -/
def Agrees (a : I) : Call W → StaticKernelObject K → Prop
  | .won, obj => obj = ⟨zeroed, kobjIniting⟩
  | .wrapped r, obj => w.getWrapped zeroed a = (obj.value, r) ∧ obj.init = kobjIniting
  | .returned (some r), obj =>
    w.getWrapped zeroed a = (obj.value, r) ∧ obj.init = kobjInitialized
  | _, _ => False

/-- Every reachable state: no call started, or one winner `v` whose progress the word
and the cell agree with, and no other winner. -/
def Inv (s : Race k K W) : Prop :=
  (s.obj = new zeroed ∧ ∀ c, s.call c = .start) ∨
    ∃ v, Agrees w zeroed (args v) (s.call v) s.obj ∧ ∀ c, c ≠ v → ¬ Won (s.call c)

variable {w zeroed args}

theorem won_of_agrees {a : I} {call : Call W} {obj : StaticKernelObject K}
    (h : Agrees w zeroed a call obj) : Won call := by
  rcases call with _ | _ | _ | _ | _ <;> trivial

theorem init_of_agrees {a : I} {call : Call W} {obj : StaticKernelObject K}
    (h : Agrees w zeroed a call obj) : obj.init = kobjIniting ∨ obj.init = kobjInitialized := by
  rcases call with _ | _ | r | _ | r
  · exact h.elim
  · exact .inl (by rw [h])
  · exact .inl h.2
  · exact h.elim
  · exact .inr h.2

/-- What one step can do: win or lose the `compare_exchange`, run `get_wrapped` after
a win, or store and return the wrapper. -/
theorem step_cases {s t : Race k K W} {c : Fin k} {a : Action}
    (h : step w args s c = some (a, t)) :
    (s.call c = .start ∧ s.obj.init = kobjUninitialized ∧ a = .compareExchange true ∧
      t = ⟨{ s.obj with init := kobjIniting }, Function.update s.call c .won⟩) ∨
    (s.call c = .start ∧ s.obj.init ≠ kobjUninitialized ∧ a = .compareExchange false ∧
      t = ⟨s.obj, Function.update s.call c (.returned none)⟩) ∨
    (s.call c = .won ∧ a = .getWrapped ∧
      t = ⟨{ s.obj with value := (w.getWrapped s.obj.value (args c)).1 },
        Function.update s.call c (.wrapped (w.getWrapped s.obj.value (args c)).2)⟩) ∨
    (∃ r, s.call c = .wrapped r ∧ a = .store ∧
      t = ⟨{ s.obj with init := kobjInitialized }, Function.update s.call c (.returned (some r))⟩) := by
  unfold step at h
  split at h
  · by_cases hi : s.obj.init = kobjUninitialized
    · simp only [hi, compareExchange_of_eq, Option.some.injEq, Prod.mk.injEq] at h
      exact .inl ⟨‹_›, hi, h.1.symm, h.2.symm⟩
    · simp only [compareExchange_of_ne _ hi, Option.some.injEq, Prod.mk.injEq] at h
      exact .inr (.inl ⟨‹_›, hi, h.1.symm, h.2.symm⟩)
  · simp only [Option.some.injEq, Prod.mk.injEq] at h
    exact .inr (.inr (.inl ⟨‹_›, h.1.symm, h.2.symm⟩))
  · simp only [Option.some.injEq, Prod.mk.injEq] at h
    exact .inr (.inr (.inr ⟨_, ‹_›, h.1.symm, h.2.symm⟩))
  · cases h

theorem step_of_start_of_uninitialized {s : Race k K W} {c : Fin k} (hc : s.call c = .start)
    (hi : s.obj.init = kobjUninitialized) :
    step w args s c = some (.compareExchange true,
      ⟨{ s.obj with init := kobjIniting }, Function.update s.call c .won⟩) := by
  simp only [step, hc, hi, compareExchange_of_eq]

theorem step_of_start_of_ne {s : Race k K W} {c : Fin k} (hc : s.call c = .start)
    (hi : s.obj.init ≠ kobjUninitialized) :
    step w args s c = some (.compareExchange false,
      ⟨s.obj, Function.update s.call c (.returned none)⟩) := by
  simp only [step, hc, compareExchange_of_ne _ hi]

theorem step_of_won {s : Race k K W} {c : Fin k} (hc : s.call c = .won) :
    step w args s c = some (.getWrapped,
      ⟨{ s.obj with value := (w.getWrapped s.obj.value (args c)).1 },
        Function.update s.call c (.wrapped (w.getWrapped s.obj.value (args c)).2)⟩) := by
  simp only [step, hc]

theorem step_of_wrapped {s : Race k K W} {c : Fin k} {r : W} (hc : s.call c = .wrapped r) :
    step w args s c = some (.store, ⟨{ s.obj with init := kobjInitialized },
      Function.update s.call c (.returned (some r))⟩) := by
  simp only [step, hc]

theorem run_cons_of_step {s t : Race k K W} {c : Fin k} {a : Action}
    (h : step w args s c = some (a, t)) (cs : List (Fin k)) :
    run w args s (c :: cs) = ((run w args t cs).1, (c, a) :: (run w args t cs).2) := by
  simp only [run, h]

theorem run_cons_of_none {s : Race k K W} {c : Fin k} (h : step w args s c = none)
    (cs : List (Fin k)) : run w args s (c :: cs) = run w args s cs := by
  simp only [run, h]

theorem step_call_of_ne {s t : Race k K W} {c d : Fin k} {a : Action}
    (h : step w args s c = some (a, t)) (hd : d ≠ c) : t.call d = s.call d := by
  rcases step_cases h with ⟨-, -, -, rfl⟩ | ⟨-, -, -, rfl⟩ | ⟨-, -, rfl⟩ | ⟨_, -, -, rfl⟩ <;>
    exact Function.update_noteq hd _ _

theorem step_eq_none_iff (s : Race k K W) (c : Fin k) :
    step w args s c = none ↔ ∃ r, s.call c = .returned r := by
  unfold step
  split
  · split <;> simp_all
  all_goals simp_all

theorem inv_initial : Inv w zeroed args (initial zeroed) := .inl ⟨rfl, fun _ => rfl⟩

private theorem eq_of_won {s : Race k K W} {v c : Fin k}
    (hothers : ∀ c, c ≠ v → ¬ Won (s.call c)) (hc : Won (s.call c)) : c = v := by
  by_contra hcv
  exact hothers c hcv hc

private theorem others_update {s : Race k K W} {v c : Fin k} {x : Call W}
    (hothers : ∀ c, c ≠ v → ¬ Won (s.call c)) (hx : c ≠ v → ¬ Won x) :
    ∀ d, d ≠ v → ¬ Won (Function.update s.call c x d) := by
  intro d hd
  by_cases hdc : d = c
  · subst hdc
    simpa using hx hd
  · simpa [Function.update_noteq hdc] using hothers d hd

theorem inv_step {s t : Race k K W} {c : Fin k} {a : Action} (hs : Inv w zeroed args s)
    (h : step w args s c = some (a, t)) : Inv w zeroed args t := by
  rcases step_cases h with ⟨hc, hi, -, rfl⟩ | ⟨hc, hi, -, rfl⟩ | ⟨hc, -, rfl⟩ | ⟨r, hc, -, rfl⟩
  · rcases hs with ⟨hobj, hstart⟩ | ⟨v, hv, -⟩
    · refine .inr ⟨c, by simp [Agrees, hobj, new], fun d hd => ?_⟩
      simp [Function.update_noteq hd, hstart d, Won]
    · rcases init_of_agrees hv with h | h <;> simp [h] at hi
  · rcases hs with ⟨hobj, -⟩ | ⟨v, hv, hothers⟩
    · exact absurd (by rw [hobj]; rfl) hi
    · have hcv : c ≠ v := by
        rintro rfl
        rw [hc] at hv
        exact hv
      refine .inr ⟨v, by simpa [Function.update_noteq hcv.symm] using hv, ?_⟩
      exact others_update hothers fun _ => id
  · rcases hs with ⟨-, hstart⟩ | ⟨v, hv, hothers⟩
    · simp [hstart c] at hc
    · obtain rfl := eq_of_won hothers (by rw [hc]; trivial)
      simp only [hc, Agrees] at hv
      refine .inr ⟨c, ?_, others_update hothers fun h => absurd rfl h⟩
      simp [Agrees, hv]
  · rcases hs with ⟨-, hstart⟩ | ⟨v, hv, hothers⟩
    · simp [hstart c] at hc
    · obtain rfl := eq_of_won hothers (by rw [hc]; trivial)
      rw [hc] at hv
      refine .inr ⟨c, ?_, others_update hothers fun h => absurd rfl h⟩
      simpa [Agrees] using hv.1

theorem inv_run {s : Race k K W} (hs : Inv w zeroed args s) :
    ∀ sched, Inv w zeroed args (run w args s sched).1 := by
  intro sched
  induction sched generalizing s with
  | nil => exact hs
  | cons c cs ih =>
    unfold run
    split
    · exact ih (inv_step hs ‹_›)
    · exact ih hs

theorem inv_after (sched : List (Fin k)) : Inv w zeroed args (after w zeroed args sched) :=
  inv_run inv_initial sched

/-- Once every call has returned: no caller at all, or one winner holding the wrapper
built from the zeroed cell while every other call returned `None`. -/
theorem returned_cases {s : Race k K W} (hs : Inv w zeroed args s)
    (hret : ∀ c, ∃ r, s.call c = .returned r) :
    ((Fin k → False) ∧ s.obj = new zeroed) ∨
      ∃ v r, s.call v = .returned (some r) ∧ w.getWrapped zeroed (args v) = (s.obj.value, r) ∧
        s.obj.init = kobjInitialized ∧ ∀ c, c ≠ v → s.call c = .returned none := by
  rcases hs with ⟨hobj, hstart⟩ | ⟨v, hv, hothers⟩
  · exact .inl ⟨fun c => by simpa [hstart c] using hret c, hobj⟩
  · obtain ⟨r, hr⟩ := hret v
    rw [hr] at hv
    rcases r with _ | r
    · exact hv.elim
    refine .inr ⟨v, r, hr, hv.1, hv.2, fun c hcv => ?_⟩
    obtain ⟨_ | rc, hrc⟩ := hret c
    · exact hrc
    · exact (hothers c hcv (by simp [hrc, Won])).elim

end ZephyrRust.InitRace
