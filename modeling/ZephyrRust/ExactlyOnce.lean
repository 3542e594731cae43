import ZephyrRust.CallProgress

/-!
What `Inv` says about every interleaving of `init_once` calls on one slot. At
most one call ever wins the `compare_exchange`; the successful
`compare_exchange`, the `get_wrapped` and the `store` each occur at most once in
the whole log, and every other call's only action is a failed
`compare_exchange` that writes nothing. The word moves only from
`KOBJ_UNINITIALIZED` to `KOBJ_INITING` to `KOBJ_INITIALIZED`, and it reads
initialized only once the winner's `get_wrapped` has set up the cell.
-/
namespace ZephyrRust.ExactlyOnce

open Object InitRace CallProgress

variable {K I W : Type} {k : Nat} {w : Wrapped K I W} {zeroed : K} {args : Fin k → I}
  {s t : Race k K W} {c d : Fin k} {a : Action}

theorem won_unique (hs : Inv w zeroed args s) (hc : Won (s.call c)) (hd : Won (s.call d)) :
    c = d := by
  rcases hs with ⟨-, hstart⟩ | ⟨v, -, hothers⟩
  · simp [hstart c, Won] at hc
  · have hcv : c = v := by_contra fun h => hothers c h hc
    have hdv : d = v := by_contra fun h => hothers d h hd
    rw [hcv, hdv]

theorem init_cases (hs : Inv w zeroed args s) :
    s.obj.init = kobjUninitialized ∨ s.obj.init = kobjIniting ∨
      s.obj.init = kobjInitialized := by
  rcases hs with ⟨hobj, -⟩ | ⟨v, hv, -⟩
  · exact .inl (by rw [hobj]; rfl)
  · exact .inr (init_of_agrees hv)

theorem uninitialized_iff (hs : Inv w zeroed args s) :
    s.obj.init = kobjUninitialized ↔ ∀ c, ¬ Won (s.call c) := by
  rcases hs with ⟨hobj, hstart⟩ | ⟨v, hv, -⟩
  · simp [hobj, new, hstart, Won]
  · have hinit : s.obj.init ≠ kobjUninitialized := by
      rcases init_of_agrees hv with h | h <;> simp [h]
    exact ⟨fun h => absurd h hinit, fun h => absurd (won_of_agrees hv) (h v)⟩

theorem of_uninitialized (hs : Inv w zeroed args s) (h : s.obj.init = kobjUninitialized) :
    (∀ c, s.call c = .start) ∧ s.obj.value = zeroed := by
  rcases hs with ⟨hobj, hstart⟩ | ⟨v, hv, -⟩
  · exact ⟨hstart, by rw [hobj]; rfl⟩
  · rcases init_of_agrees hv with h' | h' <;> simp [h'] at h

theorem initing_iff (hs : Inv w zeroed args s) :
    s.obj.init = kobjIniting ↔ ∃ v, s.call v = .won ∨ ∃ r, s.call v = .wrapped r := by
  rcases hs with ⟨hobj, hstart⟩ | ⟨v, hv, hothers⟩
  · simp [hobj, new, hstart]
  · constructor
    · intro h
      refine ⟨v, ?_⟩
      rcases hc : s.call v with _ | _ | r | _ | r <;> simp only [hc, Agrees] at hv
      · exact .inl rfl
      · exact .inr ⟨r, rfl⟩
      · simp [hv.2] at h
    · rintro ⟨u, hu⟩
      have hwon : Won (s.call u) := by rcases hu with hu | ⟨_, hu⟩ <;> simp [hu, Won]
      obtain rfl := won_unique (.inr ⟨v, hv, hothers⟩) hwon (won_of_agrees hv)
      rcases hu with hu | ⟨r, hu⟩ <;> simp only [hu, Agrees] at hv
      · rw [hv]
      · exact hv.2

/-- An initialized word means the winner's `get_wrapped` has built the cell and its wrapper. -/
theorem of_initialized (hs : Inv w zeroed args s) (h : s.obj.init = kobjInitialized) :
    ∃ v r, s.call v = .returned (some r) ∧ w.getWrapped zeroed (args v) = (s.obj.value, r) := by
  rcases hs with ⟨hobj, -⟩ | ⟨v, hv, -⟩
  · simp [hobj, new] at h
  · rcases hc : s.call v with _ | _ | r | _ | r <;> simp only [hc, Agrees] at hv
    · simp [hv] at h
    · simp [hv.2] at h
    · exact ⟨v, r, hc, hv.1⟩

theorem init_step (hs : Inv w zeroed args s) (h : step w args s c = some (a, t)) :
    t.obj.init = s.obj.init ∨
      (s.obj.init = kobjUninitialized ∧ t.obj.init = kobjIniting) ∨
      (s.obj.init = kobjIniting ∧ t.obj.init = kobjInitialized) := by
  rcases step_cases h with ⟨-, hi, -, rfl⟩ | ⟨-, -, -, rfl⟩ | ⟨-, -, rfl⟩ | ⟨r, hc, -, rfl⟩
  · exact .inr (.inl ⟨hi, rfl⟩)
  · exact .inl rfl
  · exact .inl rfl
  · exact .inr (.inr ⟨(initing_iff hs).2 ⟨c, .inr ⟨r, hc⟩⟩, rfl⟩)

theorem returned_step {r : Option W} (hd : s.call d = .returned r)
    (h : step w args s c = some (a, t)) : t.call d = .returned r := by
  by_cases hdc : d = c
  · subst hdc
    simp [(step_eq_none_iff s d).2 ⟨r, hd⟩] at h
  · rw [step_call_of_ne h hdc, hd]

theorem call_step_of_wrapped {r : W} (hc : s.call c = .wrapped r)
    (h : step w args s c = some (a, t)) : t.call c = .returned (some r) := by
  rw [step_of_wrapped hc, Option.some.injEq, Prod.mk.injEq] at h
  rw [← h.2]
  exact Function.update_same _ _ _

theorem won_step (hd : Won (s.call d)) (h : step w args s c = some (a, t)) : Won (t.call d) := by
  by_cases hdc : d = c
  · subst hdc
    rcases step_cases h with ⟨hc, -⟩ | ⟨hc, -⟩ | ⟨-, -, rfl⟩ | ⟨r, -, -, rfl⟩ <;>
      simp_all [Won]
  · rwa [step_call_of_ne h hdc]

theorem won_of_step (h : step w args s c = some (a, t)) (ha : a ≠ .compareExchange false) :
    Won (t.call c) := by
  rcases step_cases h with ⟨-, -, -, rfl⟩ | ⟨-, -, rfl, -⟩ | ⟨-, -, rfl⟩ | ⟨r, -, -, rfl⟩ <;>
    simp_all [Won]

theorem won_run (hd : Won (s.call d)) (sched : List (Fin k)) :
    Won ((run w args s sched).1.call d) := by
  induction sched generalizing s with
  | nil => exact hd
  | cons c cs ih =>
    rcases hstep : step w args s c with _ | ⟨a, t⟩
    · rw [run_cons_of_none hstep]
      exact ih hd
    · rw [run_cons_of_step hstep]
      exact ih (won_step hd hstep)

theorem won_of_mem_run (sched : List (Fin k)) (he : (c, a) ∈ (run w args s sched).2)
    (ha : a ≠ .compareExchange false) : Won ((run w args s sched).1.call c) := by
  induction sched generalizing s with
  | nil => cases he
  | cons d cs ih =>
    rcases hstep : step w args s d with _ | ⟨b, t⟩
    · rw [run_cons_of_none hstep] at he ⊢
      exact ih he
    · rw [run_cons_of_step hstep] at he ⊢
      rcases List.mem_cons.1 he with he | he
      · obtain ⟨rfl, rfl⟩ := Prod.mk.inj he
        exact won_run (won_of_step hstep ha) cs
      · exact ih he

section Once

variable (w zeroed args) (Q : Race k K W → Prop) (α : Action)

/-- The premises under which `α` happens at most once in a run: a fact `Q` of the state
that no step undoes, that every `α` step establishes, and under which `α` is impossible. -/
structure OnceOnly : Prop where
  stable : ∀ {s t : Race k K W} {c a}, Inv w zeroed args s → Q s →
    step w args s c = some (a, t) → Q t
  establish : ∀ {s t : Race k K W} {c}, step w args s c = some (α, t) → Q t
  forbid : ∀ {s t : Race k K W} {c}, Inv w zeroed args s → Q s → step w args s c ≠ some (α, t)

variable {w zeroed args Q α}

theorem countP_run_eq_zero (hQ : OnceOnly w zeroed args Q α)
    (hs : Inv w zeroed args s) (hq : Q s) (sched : List (Fin k)) :
    (run w args s sched).2.countP (fun e => e.2 = α) = 0 := by
  induction sched generalizing s with
  | nil => rfl
  | cons c cs ih =>
    rcases hstep : step w args s c with _ | ⟨b, t⟩
    · rw [run_cons_of_none hstep]
      exact ih hs hq
    · have hb : b ≠ α := by
        rintro rfl
        exact hQ.forbid hs hq hstep
      rw [run_cons_of_step hstep]
      simp [hb, ih (inv_step hs hstep) (hQ.stable hs hq hstep)]

theorem countP_run_le_one (hQ : OnceOnly w zeroed args Q α)
    (hs : Inv w zeroed args s) (sched : List (Fin k)) :
    (run w args s sched).2.countP (fun e => e.2 = α) ≤ 1 := by
  induction sched generalizing s with
  | nil => exact Nat.zero_le _
  | cons c cs ih =>
    rcases hstep : step w args s c with _ | ⟨b, t⟩
    · rw [run_cons_of_none hstep]
      exact ih hs
    · rw [run_cons_of_step hstep]
      by_cases hb : b = α
      · subst hb
        simp [countP_run_eq_zero hQ (inv_step hs hstep) (hQ.establish hstep)]
      · simpa [hb] using ih (inv_step hs hstep)

end Once

theorem onceOnly_compareExchange : OnceOnly w zeroed args
    (fun s => s.obj.init ≠ kobjUninitialized) (.compareExchange true) where
  stable hs hq h := by rcases init_step hs h with h' | ⟨h', -⟩ | ⟨-, h'⟩ <;> simp_all
  establish h := by
    rcases step_cases h with ⟨-, -, -, rfl⟩ | ⟨-, -, h', -⟩ | ⟨-, h', -⟩ | ⟨_, -, h', -⟩ <;>
      simp_all
  forbid _ hq h := by
    rcases step_cases h with ⟨-, h', -⟩ | ⟨-, -, h', -⟩ | ⟨-, h', -⟩ | ⟨_, -, h', -⟩ <;>
      simp_all

theorem onceOnly_getWrapped : OnceOnly w zeroed args
    (fun s => ∃ v r, s.call v = .wrapped r ∨ s.call v = .returned (some r)) .getWrapped where
  stable {s t c a} _ hq h := by
    obtain ⟨v, r, hv | hv⟩ := hq
    · by_cases hvc : v = c
      · subst hvc
        exact ⟨v, r, .inr (call_step_of_wrapped hv h)⟩
      · exact ⟨v, r, .inl (by rw [step_call_of_ne h hvc, hv])⟩
    · exact ⟨v, r, .inr (returned_step hv h)⟩
  establish {s t c} h := by
    rcases step_cases h with ⟨-, -, ⟨⟩, -⟩ | ⟨-, -, ⟨⟩, -⟩ | ⟨-, -, rfl⟩ | ⟨_, -, ⟨⟩, -⟩
    exact ⟨c, (w.getWrapped s.obj.value (args c)).2, .inl (by simp)⟩
  forbid {s t c} hs hq h := by
    obtain ⟨v, r, hv⟩ := hq
    rcases step_cases h with ⟨-, -, ⟨⟩, -⟩ | ⟨-, -, ⟨⟩, -⟩ | ⟨hc, -⟩ | ⟨_, -, ⟨⟩, -⟩
    obtain rfl := won_unique hs (by simp [hc, Won] : Won (s.call c))
      (by rcases hv with hv | hv <;> simp [hv, Won] : Won (s.call v))
    rcases hv with hv | hv <;> simp [hv] at hc

theorem onceOnly_store : OnceOnly w zeroed args
    (fun s => ∃ v r, s.call v = .returned (some r)) .store where
  stable _ hq h := by
    obtain ⟨v, r, hv⟩ := hq
    exact ⟨v, r, returned_step hv h⟩
  establish {s t c} h := by
    rcases step_cases h with ⟨-, -, ⟨⟩, -⟩ | ⟨-, -, ⟨⟩, -⟩ | ⟨-, ⟨⟩, -⟩ | ⟨r, -, -, rfl⟩
    exact ⟨c, r, by simp⟩
  forbid {s t c} hs hq h := by
    obtain ⟨v, r, hv⟩ := hq
    rcases step_cases h with ⟨-, -, ⟨⟩, -⟩ | ⟨-, -, ⟨⟩, -⟩ | ⟨-, ⟨⟩, -⟩ | ⟨r', hc, -⟩
    obtain rfl := won_unique hs (by simp [hc, Won] : Won (s.call c))
      (by simp [hv, Won] : Won (s.call v))
    simp [hv] at hc

theorem returned_none_of_mem {sched : List (Fin k)} (hc : c ∈ sched)
    (hwon : ¬ Won ((after w zeroed args sched).call c)) :
    (after w zeroed args sched).call c = .returned none := by
  have h : (after w zeroed args sched).call c ≠ .start := run_call_ne_start _ hc
  rcases hcall : (after w zeroed args sched).call c with _ | _ | _ | _ | _ <;>
    simp_all [Won]

theorem exactly_one_some (hk : 0 < k) {sched : List (Fin k)}
    (hret : ∀ c, ∃ r, (after w zeroed args sched).call c = .returned r) :
    ∃! c, ∃ r, (after w zeroed args sched).call c = .returned (some r) := by
  rcases returned_cases (inv_after sched : Inv w zeroed args _) hret with
    ⟨hnone, -⟩ | ⟨v, r, hr, -, -, hothers⟩
  · exact (hnone ⟨0, hk⟩).elim
  · exact ⟨v, ⟨r, hr⟩, fun d ⟨r', hd⟩ => by_contra fun hdv => by simp [hothers d hdv] at hd⟩

/-- Any number of racing `init_once` calls on one slot: one winner at most, each of its
actions once, `None` for every other call that ran, and exactly one `Some` at the end. -/
theorem initOnce_exactly_once (hk : 0 < k) :
    (∀ sched c d, Won ((after w zeroed args sched).call c) →
      Won ((after w zeroed args sched).call d) → c = d) ∧
    (∀ sched, (log w zeroed args sched).countP (fun e => e.2 = .compareExchange true) ≤ 1 ∧
      (log w zeroed args sched).countP (fun e => e.2 = .getWrapped) ≤ 1 ∧
      (log w zeroed args sched).countP (fun e => e.2 = .store) ≤ 1) ∧
    (∀ sched c d (r r' : W), (after w zeroed args sched).call c = .returned (some r) →
      (after w zeroed args sched).call d = .returned (some r') → c = d) ∧
    (∀ sched c a, (c, a) ∈ log w zeroed args sched →
      ¬ Won ((after w zeroed args sched).call c) → a = .compareExchange false) ∧
    (∀ sched c, c ∈ sched → ¬ Won ((after w zeroed args sched).call c) →
      (after w zeroed args sched).call c = .returned none) ∧
    (∀ (s t : Race k K W) c, step w args s c = some (.compareExchange false, t) →
      t.obj = s.obj ∧ t.call c = .returned none) ∧
    (∀ sched, (∀ c, ∃ r, (after w zeroed args sched).call c = .returned r) →
      ∃! c, ∃ r, (after w zeroed args sched).call c = .returned (some r)) ∧
    (∀ sched, (∀ c, 3 ≤ sched.count c) →
      (∀ c, ∃ r, (after w zeroed args sched).call c = .returned r) ∧
      ∃! c, ∃ r, (after w zeroed args sched).call c = .returned (some r)) := by
  have hret : ∀ sched, (∀ c, 3 ≤ sched.count c) →
      ∀ c, ∃ r, (after w zeroed args sched).call c = .returned r :=
    fun sched h3 c => progress_eq_three (progress_run_eq_three _ (h3 c))
  refine ⟨fun sched c d => won_unique (inv_after sched), fun sched =>
    ⟨countP_run_le_one onceOnly_compareExchange inv_initial sched,
      countP_run_le_one onceOnly_getWrapped inv_initial sched,
      countP_run_le_one onceOnly_store inv_initial sched⟩,
    fun sched c d r r' hc hd => won_unique (inv_after sched : Inv w zeroed args _)
      (by simp [hc, Won]) (by simp [hd, Won]),
    fun sched c a he hc => by_contra fun ha => hc (won_of_mem_run sched he ha),
    fun sched c => returned_none_of_mem, fun s t c h => ?_,
    fun sched => exactly_one_some hk,
    fun sched h3 => ⟨hret sched h3, exactly_one_some hk (hret sched h3)⟩⟩
  rcases step_cases h with ⟨-, -, ⟨⟩, -⟩ | ⟨-, -, -, rfl⟩ | ⟨-, ⟨⟩, -⟩ | ⟨_, -, ⟨⟩, -⟩
  simp

theorem initOnce_exactly_once_two_callers :
    let w : Wrapped Nat Nat Nat := ⟨fun v a => (v + a, a)⟩
    let args : Fin 2 → Nat := Fin.val
    0 < 2 ∧
    (∀ sched c d, Won ((after w 0 args sched).call c) →
      Won ((after w 0 args sched).call d) → c = d) ∧
    (∀ sched, (log w 0 args sched).countP (fun e => e.2 = .compareExchange true) ≤ 1 ∧
      (log w 0 args sched).countP (fun e => e.2 = .getWrapped) ≤ 1 ∧
      (log w 0 args sched).countP (fun e => e.2 = .store) ≤ 1) ∧
    (∀ sched c d (r r' : Nat), (after w 0 args sched).call c = .returned (some r) →
      (after w 0 args sched).call d = .returned (some r') → c = d) ∧
    (∀ sched c a, (c, a) ∈ log w 0 args sched →
      ¬ Won ((after w 0 args sched).call c) → a = .compareExchange false) ∧
    (∀ sched c, c ∈ sched → ¬ Won ((after w 0 args sched).call c) →
      (after w 0 args sched).call c = .returned none) ∧
    (∀ (s t : Race 2 Nat Nat) c, step w args s c = some (.compareExchange false, t) →
      t.obj = s.obj ∧ t.call c = .returned none) ∧
    (∀ sched, (∀ c, ∃ r, (after w 0 args sched).call c = .returned r) →
      ∃! c, ∃ r, (after w 0 args sched).call c = .returned (some r)) ∧
    (∀ sched, (∀ c, 3 ≤ sched.count c) →
      (∀ c, ∃ r, (after w 0 args sched).call c = .returned r) ∧
      ∃! c, ∃ r, (after w 0 args sched).call c = .returned (some r)) :=
  ⟨by decide, initOnce_exactly_once (by decide)⟩

/-- The word tracks the cell in every state a schedule reaches, and only moves forward. -/
theorem init_word_tracks_cell (sched : List (Fin k)) :
    ((after w zeroed args sched).obj.init = kobjUninitialized ∨
      (after w zeroed args sched).obj.init = kobjIniting ∨
      (after w zeroed args sched).obj.init = kobjInitialized) ∧
    ((after w zeroed args sched).obj.init = kobjUninitialized ↔
      ∀ c, ¬ Won ((after w zeroed args sched).call c)) ∧
    ((after w zeroed args sched).obj.init = kobjUninitialized →
      (∀ c, (after w zeroed args sched).call c = .start) ∧
      (after w zeroed args sched).obj.value = zeroed) ∧
    ((after w zeroed args sched).obj.init = kobjIniting ↔
      ∃ v, ((after w zeroed args sched).call v = .won ∨
        ∃ r, (after w zeroed args sched).call v = .wrapped r) ∧
      ∀ c, Won ((after w zeroed args sched).call c) → c = v) ∧
    ((after w zeroed args sched).obj.init = kobjInitialized →
      ∃ v r, (after w zeroed args sched).call v = .returned (some r) ∧
        w.getWrapped zeroed (args v) = ((after w zeroed args sched).obj.value, r)) ∧
    (∀ c a t, step w args (after w zeroed args sched) c = some (a, t) →
      t.obj.init = (after w zeroed args sched).obj.init ∨
      ((after w zeroed args sched).obj.init = kobjUninitialized ∧
        t.obj.init = kobjIniting) ∨
      ((after w zeroed args sched).obj.init = kobjIniting ∧
        t.obj.init = kobjInitialized)) := by
  have hs : Inv w zeroed args (after w zeroed args sched) := inv_after sched
  refine ⟨init_cases hs, uninitialized_iff hs, of_uninitialized hs, ?_, of_initialized hs,
    fun c a t h => init_step hs h⟩
  rw [initing_iff hs]
  refine ⟨fun ⟨v, hv⟩ => ⟨v, hv, fun c hc => won_unique hs hc ?_⟩, fun ⟨v, hv, _⟩ => ⟨v, hv⟩⟩
  rcases hv with hv | ⟨r, hv⟩ <;> simp [hv, Won]

theorem won_first (c : Fin k) (cs : List (Fin k)) :
    Won ((after w zeroed args (c :: cs)).call c) := by
  rw [after, run_cons_of_step (step_of_start_of_uninitialized rfl rfl)]
  exact won_run (by simp [Won]) cs

/-- The caller a schedule runs first wins the race and sets up the cell. -/
theorem first_caller_wins (c : Fin k) (cs : List (Fin k)) :
    (∀ d, Won ((after w zeroed args (c :: cs)).call d) ↔ d = c) ∧
    ((after w zeroed args (c :: cs)).obj.init = kobjInitialized →
      (after w zeroed args (c :: cs)).obj.value = (w.getWrapped zeroed (args c)).1) := by
  have hs : Inv w zeroed args (after w zeroed args (c :: cs)) := inv_after _
  have hc : Won ((after w zeroed args (c :: cs)).call c) := won_first c cs
  refine ⟨fun d => ⟨fun hd => won_unique hs hd hc, fun h => h ▸ hc⟩, fun h => ?_⟩
  obtain ⟨v, r, hv, hgw⟩ := of_initialized hs h
  obtain rfl := won_unique hs (by simp [hv, Won] : Won ((after w zeroed args (c :: cs)).call v)) hc
  rw [hgw]

end ZephyrRust.ExactlyOnce
