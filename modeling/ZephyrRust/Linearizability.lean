import ZephyrRust.ExactlyOnce

/-!
`init_once` is linearizable, at its `compare_exchange`. Order the callers by
their first steps in a schedule, the steps that run their `compare_exchange`.
Once every call has returned, making the uninterrupted `init_once` calls of
Object one after another in that order leaves the slot as the race left it and
gives every caller what it got in the race. The order respects real time: a
call that has returned at some point of the schedule comes before every call
that has not yet started there.
-/
namespace ZephyrRust.Linearizability

open Object InitRace CallProgress ExactlyOnce

variable {K I W : Type} {k : Nat} {w : Wrapped K I W} {args : Fin k → I}

/-- The callers' `init_once` calls made one after another in `order`, each uninterrupted:
the slot at the end and what each caller got back. -/
def initSeq (w : Wrapped K I W) (args : Fin k → I) :
    StaticKernelObject K → List (Fin k) → StaticKernelObject K × (Fin k → Option W)
  | obj, [] => (obj, fun _ => none)
  | obj, c :: cs =>
    ((initSeq w args (initOnce w obj (args c)).1 cs).1,
      Function.update (initSeq w args (initOnce w obj (args c)).1 cs).2 c (initOnce w obj (args c)).2)

theorem initSeq_of_ne (obj : StaticKernelObject K) (h : obj.init ≠ kobjUninitialized) :
    ∀ cs : List (Fin k), initSeq w args obj cs = (obj, fun _ => none)
  | [] => rfl
  | c :: cs => by
    simp only [initSeq, initOnce_of_ne w obj _ h, initSeq_of_ne obj h cs, Prod.mk.injEq, true_and]
    exact Function.update_eq_self c _

/-- The callers in the order of their first steps in a schedule. -/
def firstSteps : List (Fin k) → List (Fin k)
  | [] => []
  | c :: cs => c :: (firstSteps cs).erase c

theorem mem_firstSteps {c : Fin k} : ∀ {sched : List (Fin k)}, c ∈ firstSteps sched ↔ c ∈ sched
  | [] => Iff.rfl
  | d :: cs => by
    by_cases hcd : c = d
    · simp [firstSteps, hcd]
    · simp [firstSteps, hcd, List.mem_erase_of_ne hcd, mem_firstSteps]

theorem nodup_firstSteps : ∀ sched : List (Fin k), (firstSteps sched).Nodup
  | [] => List.nodup_nil
  | c :: cs => List.nodup_cons.2 ⟨(nodup_firstSteps cs).not_mem_erase, (nodup_firstSteps cs).erase c⟩

theorem sublist_firstSteps {a b : Fin k} (ys : List (Fin k)) :
    ∀ {xs : List (Fin k)}, a ∈ xs → b ∉ xs → b ∈ ys → [a, b].Sublist (firstSteps (xs ++ ys))
  | [], ha, _, _ => (List.not_mem_nil a ha).elim
  | x :: xs, ha, hb, hys => by
    have hbx : b ≠ x := fun h => hb (h ▸ List.mem_cons_self x xs)
    have hbxs : b ∉ xs := fun h => hb (List.mem_cons_of_mem x h)
    rw [List.cons_append, firstSteps]
    by_cases hax : a = x
    · subst hax
      refine List.Sublist.cons₂ a (List.singleton_sublist.2 ?_)
      rw [List.mem_erase_of_ne hbx, mem_firstSteps]
      exact List.mem_append_right xs hys
    · have hsub := (sublist_firstSteps ys ((List.mem_cons.1 ha).resolve_left hax) hbxs hys).erase x
      rw [List.erase_of_not_mem (by simp [Ne.symm hax, Ne.symm hbx])] at hsub
      exact hsub.cons x

variable {zeroed : K}

theorem mem_of_returned {l : List (Fin k)} {c : Fin k}
    (h : ∃ r, (after w zeroed args l).call c = .returned r) : c ∈ l := by
  obtain ⟨r, h⟩ := h
  refine by_contra fun hc => ?_
  rw [after, run_call_of_not_mem _ hc] at h
  cases h

/-- A call returned at some point comes before every call not yet started there. -/
theorem realTime_firstSteps {sched : List (Fin k)} {a b : Fin k} (n : Nat)
    (hb : ∃ r, (after w zeroed args sched).call b = .returned r)
    (ha : ∃ r, (after w zeroed args (sched.take n)).call a = .returned r)
    (hstart : (after w zeroed args (sched.take n)).call b = .start) :
    [a, b].Sublist (firstSteps sched) := by
  have hbn : b ∉ sched.take n := fun h => run_call_ne_start _ h hstart
  have hbd : b ∈ sched.drop n := by
    have := mem_of_returned hb
    rw [← List.take_append_drop n sched, List.mem_append] at this
    exact this.resolve_left hbn
  rw [← List.take_append_drop n sched]
  exact sublist_firstSteps _ (mem_of_returned ha) hbn hbd

/-- Linearizability at the `compare_exchange`: the callers' uninterrupted calls in the
order of their first steps give the race's slot and results, and respect real time. -/
theorem linearizable (sched : List (Fin k))
    (hret : ∀ c, ∃ r, (after w zeroed args sched).call c = .returned r) :
    (firstSteps sched).Nodup ∧ (∀ c, c ∈ firstSteps sched) ∧
      (initSeq w args (new zeroed) (firstSteps sched)).1 = (after w zeroed args sched).obj ∧
      (∀ c, (after w zeroed args sched).call c =
        .returned ((initSeq w args (new zeroed) (firstSteps sched)).2 c)) ∧
      ∀ n a b, (∃ r, (after w zeroed args (sched.take n)).call a = .returned r) →
        (after w zeroed args (sched.take n)).call b = .start → [a, b].Sublist (firstSteps sched) := by
  have hall : ∀ c, c ∈ sched := fun c => mem_of_returned (hret c)
  suffices hseq : (initSeq w args (new zeroed) (firstSteps sched)).1 = (after w zeroed args sched).obj ∧
      ∀ c, (after w zeroed args sched).call c =
        .returned ((initSeq w args (new zeroed) (firstSteps sched)).2 c) from
    ⟨nodup_firstSteps sched, fun c => mem_firstSteps.2 (hall c), hseq.1, hseq.2,
      fun n a b ha hb => realTime_firstSteps n (hret b) ha hb⟩
  rcases returned_cases (inv_after sched : Inv w zeroed args _) hret with
    ⟨hnone, hobj⟩ | ⟨v, r, hr, hgw, hinit, hothers⟩
  · obtain rfl : sched = [] := List.eq_nil_iff_forall_not_mem.2 fun c _ => hnone c
    exact ⟨hobj.symm, fun c => (hnone c).elim⟩
  obtain _ | ⟨c₀, cs⟩ := sched
  · exact (List.not_mem_nil v (hall v)).elim
  obtain rfl : c₀ = v := won_unique (inv_after _ : Inv w zeroed args _) (won_first c₀ cs)
    (by simp [hr, Won])
  have hfirst : initOnce w (new zeroed) (args c₀) =
      ((after w zeroed args (c₀ :: cs)).obj, some r) := by
    rw [initOnce_of_uninitialized w _ _ rfl, new, hgw, ← hinit]
  have hseq : initSeq w args (new zeroed) (firstSteps (c₀ :: cs)) =
      ((after w zeroed args (c₀ :: cs)).obj, Function.update (fun _ => none) c₀ (some r)) := by
    simp only [firstSteps, initSeq, hfirst, initSeq_of_ne _ (by rw [hinit]; decide)]
  refine ⟨by rw [hseq], fun c => ?_⟩
  rw [hseq]
  by_cases hcv : c = c₀
  · subst hcv
    simpa using hr
  · simp [hothers c hcv, Function.update_noteq hcv]

theorem linearizable_two_callers :
    let w : Wrapped Nat Nat Nat := ⟨fun v a => (v + a, a)⟩
    let args : Fin 2 → Nat := fun c => c.val + 5
    let sched : List (Fin 2) := [1, 0, 1, 1, 0]
    (∀ c, ∃ r, (after w 0 args sched).call c = .returned r) ∧
    (firstSteps sched).Nodup ∧ (∀ c, c ∈ firstSteps sched) ∧
      (initSeq w args (new 0) (firstSteps sched)).1 = (after w 0 args sched).obj ∧
      (∀ c, (after w 0 args sched).call c =
        .returned ((initSeq w args (new 0) (firstSteps sched)).2 c)) ∧
      ∀ n a b, (∃ r, (after w 0 args (sched.take n)).call a = .returned r) →
        (after w 0 args (sched.take n)).call b = .start → [a, b].Sublist (firstSteps sched) :=
  have hret : ∀ c : Fin 2, ∃ r, (after ⟨fun v a => (v + a, a)⟩ 0 (fun c : Fin 2 => c.val + 5)
      [1, 0, 1, 1, 0]).call c = .returned r
    | 0 => ⟨_, rfl⟩
    | 1 => ⟨_, rfl⟩
  ⟨hret, linearizable _ hret⟩

end ZephyrRust.Linearizability
