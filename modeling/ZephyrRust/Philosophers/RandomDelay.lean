import Mathlib.Data.BitVec
import Mathlib.Tactic.IntervalCases
import ZephyrRust.Philosophers.Table

/-!
`get_random_delay` of the philosophers sample. The tick is the `i64` uptime
masked with `usize::MAX as i64` and cast to `usize`; the delay index is
`tick / 100 * (id + 1)` cut to its low five bits; the call sleeps
`(delay + 1) * period` milliseconds. `usize` is `w` bits wide, 32 or 64, and
every `usize` operation is taken modulo `2 ^ w`, as a wrapping build computes
it. For the philosophers' ids no operation wraps, and the delay is a multiple
of the period between one and thirty-two periods. Over all uptimes the index
takes exactly the values below 32 that `gcd (id + 1) 32` divides, so only the
philosophers with `id + 1` odd draw from the whole range.
-/
namespace ZephyrRust.Philosophers

/-- `usize::MAX` for a `usize` of `w` bits. -/
def usizeMax (w : Nat) : Nat := 2 ^ w - 1

/-- `(uptime_get() & (usize::MAX as i64)) as usize`: all ones on 64 bits, the low 32
bits on 32, then truncated to `w` bits. -/
def uptimeTick (w : Nat) (uptime : BitVec 64) : Nat :=
  (uptime &&& BitVec.ofNat 64 (usizeMax w)).toNat % 2 ^ w

/-- `(tick / 100 * (id + 1)) & 0x1f` in `usize` arithmetic. -/
def delayIndex (w id tick : Nat) : Nat :=
  tick / 100 * ((id + 1) % 2 ^ w) % 2 ^ w &&& 0x1f

/-- The milliseconds `get_random_delay` hands to `Duration::millis_at_least`,
`(delay + 1) * period` in `usize` arithmetic (the cast to `Tick` keeps the value). -/
def getRandomDelay (w : Nat) (uptime : BitVec 64) (id period : Nat) : Nat :=
  (delayIndex w id (uptimeTick w uptime) + 1) % 2 ^ w * period % 2 ^ w

section

variable {w id period : Nat}

/-- Masking with `usize::MAX as i64` and casting keeps the uptime's low `w` bits. -/
theorem uptimeTick_eq_mod (hw : w ≤ 64) (uptime : BitVec 64) :
    uptimeTick w uptime = uptime.toNat % 2 ^ w := by
  have hmax : usizeMax w < 2 ^ 64 :=
    lt_of_lt_of_le (Nat.sub_lt (Nat.two_pow_pos w) Nat.one_pos) (Nat.pow_le_pow_right Nat.two_pos hw)
  rw [uptimeTick, BitVec.toNat_and, BitVec.toNat_ofNat, Nat.mod_eq_of_lt hmax, usizeMax,
    Nat.and_pow_two_sub_one_eq_mod, Nat.mod_mod]

theorem uptimeTick_le (uptime : BitVec 64) : uptimeTick w uptime ≤ usizeMax w := by
  have := Nat.mod_lt (uptime &&& BitVec.ofNat 64 (usizeMax w)).toNat (Nat.two_pow_pos w)
  unfold uptimeTick usizeMax
  omega

theorem delayIndex_le (tick : Nat) : delayIndex w id tick ≤ 31 := Nat.and_le_right

theorem sixtyFour_le_two_pow (hw : w = 32 ∨ w = 64) : 64 ≤ 2 ^ w := by
  rcases hw with rfl | rfl <;> decide

/-- For a philosopher's id the product `tick / 100 * (id + 1)` fits a `usize`. -/
theorem tick_mul_le (hid : id < numPhil) {tick : Nat} (ht : tick ≤ usizeMax w) :
    tick / 100 * (id + 1) ≤ usizeMax w := by
  have h6 : tick / 100 * (id + 1) ≤ tick / 100 * 6 :=
    Nat.mul_le_mul_left _ (by unfold numPhil at hid; omega)
  omega

theorem delayIndex_eq (hw : w = 32 ∨ w = 64) (hid : id < numPhil) {tick : Nat}
    (ht : tick ≤ usizeMax w) : delayIndex w id tick = tick / 100 * (id + 1) &&& 0x1f := by
  have h64 := sixtyFour_le_two_pow hw
  have hlt : tick / 100 * (id + 1) < 2 ^ w := by
    have := tick_mul_le hid ht
    unfold usizeMax at this
    omega
  unfold delayIndex
  rw [Nat.mod_eq_of_lt (by unfold numPhil at hid; omega : id + 1 < 2 ^ w),
    Nat.mod_eq_of_lt hlt]

theorem delay_mul_le (hp : 32 * period ≤ usizeMax w) (uptime : BitVec 64) :
    (delayIndex w id (uptimeTick w uptime) + 1) * period ≤ usizeMax w :=
  calc (delayIndex w id (uptimeTick w uptime) + 1) * period
      ≤ 32 * period := Nat.mul_le_mul_right _ (Nat.succ_le_succ (delayIndex_le _))
    _ ≤ usizeMax w := hp

theorem getRandomDelay_eq (hw : w = 32 ∨ w = 64) (hp : 32 * period ≤ usizeMax w)
    (uptime : BitVec 64) :
    getRandomDelay w uptime id period = (delayIndex w id (uptimeTick w uptime) + 1) * period := by
  have h64 := sixtyFour_le_two_pow hw
  have hd : delayIndex w id (uptimeTick w uptime) ≤ 31 := delayIndex_le _
  have hm : (delayIndex w id (uptimeTick w uptime) + 1) * period ≤ usizeMax w :=
    delay_mul_le hp uptime
  unfold usizeMax at hm
  unfold getRandomDelay
  rw [Nat.mod_eq_of_lt (by omega : delayIndex w id (uptimeTick w uptime) + 1 < 2 ^ w),
    Nat.mod_eq_of_lt (by omega)]

/-- For a philosopher's id, a period with `32 * p ≤ usize::MAX` and a 32- or 64-bit `usize`:
no operation wraps, and the milliseconds are a multiple of `p` in `[p, 32 * p]`. -/
theorem getRandomDelay_bounds (hw : w = 32 ∨ w = 64) (hid : id < numPhil)
    (hp : 32 * period ≤ usizeMax w) (uptime : BitVec 64) :
    uptimeTick w uptime / 100 * (id + 1) ≤ usizeMax w ∧
    delayIndex w id (uptimeTick w uptime) = uptimeTick w uptime / 100 * (id + 1) &&& 0x1f ∧
    (delayIndex w id (uptimeTick w uptime) + 1) * period ≤ usizeMax w ∧
    getRandomDelay w uptime id period = (delayIndex w id (uptimeTick w uptime) + 1) * period ∧
    period ∣ getRandomDelay w uptime id period ∧
    period ≤ getRandomDelay w uptime id period ∧
    getRandomDelay w uptime id period ≤ 32 * period ∧
    (getRandomDelay w uptime id period = 0 ↔ period = 0) := by
  have heq : getRandomDelay w uptime id period =
      (delayIndex w id (uptimeTick w uptime) + 1) * period := getRandomDelay_eq hw hp uptime
  refine ⟨tick_mul_le hid (uptimeTick_le uptime), delayIndex_eq hw hid (uptimeTick_le uptime),
    delay_mul_le hp uptime, heq, ?_⟩
  rw [heq]
  refine ⟨Dvd.intro_left _ rfl, Nat.le_mul_of_pos_left _ (Nat.succ_pos _),
    Nat.mul_le_mul_right _ (Nat.succ_le_succ (delayIndex_le _)), ?_⟩
  simp

theorem getRandomDelay_bounds_philosopher :
    (64 = 32 ∨ 64 = 64) ∧ 5 < numPhil ∧ 32 * 25 ≤ usizeMax 64 ∧
    uptimeTick 64 123456 / 100 * (5 + 1) ≤ usizeMax 64 ∧
    delayIndex 64 5 (uptimeTick 64 123456) = uptimeTick 64 123456 / 100 * (5 + 1) &&& 0x1f ∧
    (delayIndex 64 5 (uptimeTick 64 123456) + 1) * 25 ≤ usizeMax 64 ∧
    getRandomDelay 64 123456 5 25 = (delayIndex 64 5 (uptimeTick 64 123456) + 1) * 25 ∧
    25 ∣ getRandomDelay 64 123456 5 25 ∧
    25 ≤ getRandomDelay 64 123456 5 25 ∧
    getRandomDelay 64 123456 5 25 ≤ 32 * 25 ∧
    (getRandomDelay 64 123456 5 25 = 0 ↔ 25 = 0) :=
  ⟨.inr rfl, by decide, by decide,
    getRandomDelay_bounds (.inr rfl) (by decide) (by decide) 123456⟩

/-- A period of zero fits every bound on the period, yet `get_random_delay` then asks for
zero milliseconds: the `+ 1` keeps the delay positive only for a positive period. -/
theorem getRandomDelay_zero_period :
    0 < numPhil ∧ 32 * 0 ≤ usizeMax 64 ∧ getRandomDelay 64 0 0 0 = 0 := by
  decide


/-- An uptime of `100 * t` milliseconds gives the index `t * (id + 1) % 32`. -/
theorem delayIndex_hundreds (hw : w = 32 ∨ w = 64) (hid : id < numPhil) {t : Nat}
    (ht : 100 * t < 2 ^ 32) :
    delayIndex w id (uptimeTick w (BitVec.ofNat 64 (100 * t))) = t * (id + 1) % 32 := by
  have hw64 : 2 ^ 32 ≤ 2 ^ w ∧ w ≤ 64 := by rcases hw with rfl | rfl <;> decide
  have htick : uptimeTick w (BitVec.ofNat 64 (100 * t)) = 100 * t := by
    rw [uptimeTick_eq_mod hw64.2, BitVec.toNat_ofNat,
      Nat.mod_eq_of_lt (ht.trans (by decide) : 100 * t < 2 ^ 64),
      Nat.mod_eq_of_lt (ht.trans_le hw64.1)]
  rw [delayIndex_eq hw hid (htick ▸ uptimeTick_le _), htick, Nat.mul_div_cancel_left t (by decide)]
  exact Nat.and_pow_two_sub_one_eq_mod _ 5

/-- The delay indices a philosopher draws over all uptimes are exactly the `j < 32` that
`gcd (id + 1) 32` divides. -/
theorem delayIndex_range (hw : w = 32 ∨ w = 64) (hid : id < numPhil) (j : Nat) :
    (∃ uptime : BitVec 64, delayIndex w id (uptimeTick w uptime) = j) ↔
      j < 32 ∧ Nat.gcd (id + 1) 32 ∣ j := by
  constructor
  · rintro ⟨uptime, rfl⟩
    rw [delayIndex_eq hw hid (uptimeTick_le uptime), show (0x1f : Nat) = 2 ^ 5 - 1 from rfl,
      Nat.and_pow_two_sub_one_eq_mod]
    exact ⟨Nat.mod_lt _ (by decide),
      (Nat.dvd_mod_iff (Nat.gcd_dvd_right _ _)).2 (Dvd.dvd.mul_left (Nat.gcd_dvd_left _ _) _)⟩
  · rintro ⟨hj, hg⟩
    have hid6 : id < 6 := hid
    interval_cases id <;> simp at hg
    · exact ⟨_, (delayIndex_hundreds hw hid (by omega : 100 * j < 2 ^ 32)).trans (by omega)⟩
    · exact ⟨_, (delayIndex_hundreds hw hid (by omega : 100 * (j / 2) < 2 ^ 32)).trans (by omega)⟩
    · exact ⟨_, (delayIndex_hundreds hw hid (by omega : 100 * (j * 11) < 2 ^ 32)).trans (by omega)⟩
    · exact ⟨_, (delayIndex_hundreds hw hid (by omega : 100 * (j / 4) < 2 ^ 32)).trans (by omega)⟩
    · exact ⟨_, (delayIndex_hundreds hw hid (by omega : 100 * (j * 13) < 2 ^ 32)).trans (by omega)⟩
    · exact ⟨_, (delayIndex_hundreds hw hid
        (by omega : 100 * (j / 2 * 11) < 2 ^ 32)).trans (by omega)⟩

theorem delayIndex_range_philosopher :
    (64 = 32 ∨ 64 = 64) ∧ 3 < numPhil ∧
    ((∃ uptime : BitVec 64, delayIndex 64 3 (uptimeTick 64 uptime) = 12) ↔
      12 < 32 ∧ Nat.gcd (3 + 1) 32 ∣ 12) :=
  ⟨.inr rfl, by decide, delayIndex_range (.inr rfl) (by decide) 12⟩

end

end ZephyrRust.Philosophers
