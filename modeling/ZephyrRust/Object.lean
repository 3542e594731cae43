import Mathlib.Logic.Function.Basic

/-!
Static kernel objects of `zephyr/src/object.rs`. A `StaticKernelObject` pairs the
kernel object's cell with an atomic `init` word. `new` and the loader's zero fill
both give the zeroed cell and `KOBJ_UNINITIALIZED`. `init_once` moves the word
with one `compare_exchange` and one `store`, running the object's `get_wrapped`
between them. This module reads `init_once` as one uninterrupted call;
InitRace splits it into its three atomic steps. Straight-line calls on a family
of statics, as `rust_main` makes to create its threads, each return the wrapper
exactly when no static is named twice.
-/
namespace ZephyrRust.Object

/-- `KOBJ_UNINITIALIZED`: zero, so that zero-filled memory is uninitialized. -/
def kobjUninitialized : Nat := 0

def kobjIniting : Nat := 1

def kobjInitialized : Nat := 2

@[simp] theorem kobjUninitialized_eq : kobjUninitialized = 0 := rfl

@[simp] theorem kobjIniting_eq : kobjIniting = 1 := rfl

@[simp] theorem kobjInitialized_eq : kobjInitialized = 2 := rfl

/-- `StaticKernelObject<T>`: the kernel object's cell and its initialization word. -/
structure StaticKernelObject (K : Type) where
  value : K
  init : Nat

/-- The `Wrapped` trait: `get_wrapped` sets up the kernel object in its cell from the
initializer and returns the wrapper around it. -/
structure Wrapped (K I W : Type) where
  getWrapped : K → I → K × W

variable {K I W : Type}

/-- `StaticKernelObject::new`, where `zeroed` is `mem::zeroed()` of the kernel type. -/
def new (zeroed : K) : StaticKernelObject K := ⟨zeroed, kobjUninitialized⟩

/-- `AtomicUsize::compare_exchange`: the word afterwards, and `Ok` of the old value when it
equalled `current`, `Err` of it otherwise. -/
def compareExchange (word current new : Nat) : Nat × Except Nat Nat :=
  if word = current then (new, .ok word) else (word, .error word)

/-- `StaticKernelObject::init_once` run as one uninterrupted call. -/
def initOnce (w : Wrapped K I W) (obj : StaticKernelObject K) (args : I) :
    StaticKernelObject K × Option W :=
  match compareExchange obj.init kobjUninitialized kobjIniting with
  | (_, .error _) => (obj, none)
  | (_, .ok _) =>
    let (value, result) := w.getWrapped obj.value args
    ({ value, init := kobjInitialized }, some result)

theorem compareExchange_of_eq (word new : Nat) :
    compareExchange word word new = (new, .ok word) := if_pos rfl

theorem compareExchange_of_ne {word current : Nat} (new : Nat) (h : word ≠ current) :
    compareExchange word current new = (word, .error word) := if_neg h

theorem initOnce_of_uninitialized (w : Wrapped K I W) (obj : StaticKernelObject K) (args : I)
    (h : obj.init = kobjUninitialized) :
    initOnce w obj args =
      (⟨(w.getWrapped obj.value args).1, kobjInitialized⟩, some (w.getWrapped obj.value args).2) := by
  simp only [initOnce, h, compareExchange_of_eq]

theorem initOnce_of_ne (w : Wrapped K I W) (obj : StaticKernelObject K) (args : I)
    (h : obj.init ≠ kobjUninitialized) : initOnce w obj args = (obj, none) := by
  simp only [initOnce, compareExchange_of_ne _ h]

section Statics

variable {m : Nat} (w : Wrapped K I W)

/-- `init_once` on static `j` of a family, such as `kobj_define!` declares. -/
def initOnceAt (objs : Fin m → StaticKernelObject K) (j : Fin m) (args : I) :
    (Fin m → StaticKernelObject K) × Option W :=
  (Function.update objs j (initOnce w (objs j) args).1, (initOnce w (objs j) args).2)

/-- Straight-line `init_once` calls on a family of statics, as `rust_main` makes them:
the statics afterwards and each call's result. -/
def initEach : (Fin m → StaticKernelObject K) → List (Fin m × I) →
    (Fin m → StaticKernelObject K) × List (Option W)
  | objs, [] => (objs, [])
  | objs, (j, args) :: calls =>
    ((initEach (initOnceAt w objs j args).1 calls).1,
      (initOnceAt w objs j args).2 :: (initEach (initOnceAt w objs j args).1 calls).2)

variable {w}

theorem initOnce_init_ne (obj : StaticKernelObject K) (args : I) :
    (initOnce w obj args).1.init ≠ kobjUninitialized := by
  by_cases h : obj.init = kobjUninitialized
  · simp [initOnce_of_uninitialized w obj args h]
  · rwa [initOnce_of_ne w obj args h]

theorem none_mem_initEach_of_ne (calls : List (Fin m × I)) {objs : Fin m → StaticKernelObject K}
    {j : Fin m} (h : (objs j).init ≠ kobjUninitialized) (hj : j ∈ calls.map Prod.fst) :
    none ∈ (initEach w objs calls).2 := by
  induction calls generalizing objs with
  | nil => simp at hj
  | cons c calls ih =>
    obtain ⟨j', a⟩ := c
    by_cases hjj : j' = j
    · subst hjj
      simp [initEach, initOnceAt, initOnce_of_ne w _ a h]
    · refine List.mem_cons_of_mem _ (ih ?_ ?_)
      · simpa [initOnceAt, Function.update_noteq (Ne.symm hjj)] using h
      · simpa [Ne.symm hjj] using hj

/-- A static named twice makes some call return `None`. -/
theorem none_mem_initEach (calls : List (Fin m × I)) {objs : Fin m → StaticKernelObject K}
    (hdup : ¬ (calls.map Prod.fst).Nodup) : none ∈ (initEach w objs calls).2 := by
  induction calls generalizing objs with
  | nil => simp at hdup
  | cons c calls ih =>
    obtain ⟨j, a⟩ := c
    simp only [List.map_cons, List.nodup_cons, not_and_or, not_not] at hdup
    rcases hdup with hj | hdup
    · exact List.mem_cons_of_mem _ (none_mem_initEach_of_ne calls
        (by simpa [initOnceAt] using initOnce_init_ne (objs j) a) hj)
    · exact List.mem_cons_of_mem _ (ih hdup)

theorem initEach_of_nodup (w : Wrapped K I W) (zeroed : Fin m → K) (calls : List (Fin m × I))
    {objs : Fin m → StaticKernelObject K} (hnd : (calls.map Prod.fst).Nodup)
    (hnew : ∀ j ∈ calls.map Prod.fst, objs j = new (zeroed j)) :
    (initEach w objs calls).2 = calls.map (fun c => some (w.getWrapped (zeroed c.1) c.2).2) ∧
    (∀ c ∈ calls, (initEach w objs calls).1 c.1 =
      ⟨(w.getWrapped (zeroed c.1) c.2).1, kobjInitialized⟩) ∧
    ∀ j, j ∉ calls.map Prod.fst → (initEach w objs calls).1 j = objs j := by
  induction calls generalizing objs with
  | nil => simp [initEach]
  | cons c calls ih =>
    obtain ⟨j, a⟩ := c
    simp only [List.map_cons, List.nodup_cons] at hnd
    have hcall : initOnceAt w objs j a =
        (Function.update objs j ⟨(w.getWrapped (zeroed j) a).1, kobjInitialized⟩,
          some (w.getWrapped (zeroed j) a).2) := by
      rw [initOnceAt, hnew j (List.mem_cons_self _ _), initOnce_of_uninitialized w _ a rfl]
      rfl
    obtain ⟨hres, hfin, hrest⟩ := @ih (Function.update objs j _) hnd.2 fun j' hj' => by
      rw [Function.update_noteq fun h : j' = j => hnd.1 (h ▸ hj')]
      exact hnew j' (List.mem_cons_of_mem _ hj')
    simp only [initEach, hcall]
    refine ⟨by rw [hres]; rfl, fun c hc => ?_, fun j' hj' => ?_⟩
    · rcases List.mem_cons.1 hc with rfl | hc
      · rw [hrest j hnd.1, Function.update_same]
      · exact hfin c hc
    · simp only [List.map_cons, List.mem_cons, not_or] at hj'
      rw [hrest j' hj'.2, Function.update_noteq hj'.1]

/-- Straight-line `init_once` calls on zero-filled statics return no `None` exactly when no
static is named twice; then each returns its own wrapper and the rest stay new. -/
theorem initEach_zeroed (zeroed : Fin m → K) (calls : List (Fin m × I)) :
    ((calls.map Prod.fst).Nodup ↔ none ∉ (initEach w (fun j => new (zeroed j)) calls).2) ∧
    ((calls.map Prod.fst).Nodup →
      (initEach w (fun j => new (zeroed j)) calls).2 =
        calls.map (fun c => some (w.getWrapped (zeroed c.1) c.2).2) ∧
      (∀ c ∈ calls, (initEach w (fun j => new (zeroed j)) calls).1 c.1 =
        ⟨(w.getWrapped (zeroed c.1) c.2).1, kobjInitialized⟩) ∧
      ∀ j, j ∉ calls.map Prod.fst → (initEach w (fun j => new (zeroed j)) calls).1 j = new (zeroed j)) := by
  have hfresh := fun hnd => initEach_of_nodup w zeroed calls hnd fun j _ => rfl
  refine ⟨⟨fun hnd => ?_, fun hnone => by_contra fun hdup => hnone (none_mem_initEach calls hdup)⟩,
    hfresh⟩
  rw [(hfresh hnd).1]
  simp

end Statics

end ZephyrRust.Object
