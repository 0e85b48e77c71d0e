import CxNetworking.Core.EventLoop
import Mathlib.Order.Bounds.Basic

/-! The arithmetic of deadlines. A deadline is a 64-bit count of nanoseconds, the sum of
a clock reading and a delay in milliseconds; the time to the soonest one is cut to whole
milliseconds, and narrowed to the `int` that `::poll` takes. -/
namespace CxNetworking.Core

/-- The counts that 64 bits hold. -/
def Fits64 (x : Int) : Prop := -2 ^ 63 ≤ x ∧ x < 2 ^ 63

instance : DecidablePred Fits64 := fun x => inferInstanceAs (Decidable (-2 ^ 63 ≤ x ∧ x < 2 ^ 63))

theorem wrap64_eq_iff (x : Int) : wrap64 x = x ↔ Fits64 x := by
  unfold wrap64 Fits64
  omega

theorem wrap64_fits (x : Int) : Fits64 (wrap64 x) := by
  unfold wrap64 Fits64
  omega

theorem wrap64_le {x : Int} (h : -2 ^ 63 ≤ x) : wrap64 x ≤ x := by
  unfold wrap64
  omega

/-- The sum of a reading and a 64-bit span that wraps is later than the reading when it
neither overflows with a positive span nor stays in range with another. -/
theorem lt_wrap64_add_iff {now p : Int} (hnow : Fits64 now) (hp : Fits64 p) :
    now < wrap64 (now + p) ↔ (0 < p ∧ now + p < 2 ^ 63) ∨ now + p < -2 ^ 63 := by
  unfold Fits64 at hnow hp
  unfold wrap64
  omega

theorem wrap64_add_wrap64 (a x : Int) : wrap64 (a + wrap64 x) = wrap64 (a + x) := by
  unfold wrap64
  omega

theorem deadline_eq_wrap64 (now delay : Int) : deadline now delay = wrap64 (now + delay * nanosPerMilli) :=
  wrap64_add_wrap64 now _

theorem max_zero_tdiv (x : Int) : max 0 (x.tdiv nanosPerMilli) = max 0 (x / nanosPerMilli) := by
  rcases Int.le_total 0 x with hx | hx
  · rw [Int.tdiv_eq_ediv_of_nonneg hx]
  · have hcut : x.tdiv nanosPerMilli = -(-x / nanosPerMilli) := by
      rw [← Int.tdiv_eq_ediv_of_nonneg (by omega), Int.neg_tdiv, Int.neg_neg]
    rw [hcut]
    unfold nanosPerMilli
    omega

namespace EventLoop

variable {κ φ : Type*}

def Soonest (l : EventLoop κ φ) (s : Int) : Prop := IsLeast {w | ∃ t ∈ l.timers, t.when = w} s

theorem foldl_min_le (ts : List (Timer φ)) (m : Int) :
    ts.foldl (fun m t => min m t.when) m ≤ m ∧ ∀ t ∈ ts, ts.foldl (fun m t => min m t.when) m ≤ t.when := by
  induction ts generalizing m with
  | nil => exact ⟨Int.le_refl m, fun _ ht => absurd ht List.not_mem_nil⟩
  | cons t ts ih =>
      obtain ⟨hm, hts⟩ := ih (min m t.when)
      refine ⟨hm.trans (Int.min_le_left ..), ?_⟩
      intro u hu
      rcases List.mem_cons.mp hu with rfl | hu
      · exact hm.trans (Int.min_le_right ..)
      · exact hts u hu

theorem foldl_min_mem (ts : List (Timer φ)) (m : Int) :
    ts.foldl (fun m t => min m t.when) m = m ∨ ∃ t ∈ ts, t.when = ts.foldl (fun m t => min m t.when) m := by
  induction ts generalizing m with
  | nil => exact .inl rfl
  | cons t ts ih =>
      rcases ih (min m t.when) with h | ⟨u, hu, h⟩
      · rcases Int.le_total m t.when with hle | hle
        · rw [Int.min_eq_left hle] at h
          exact .inl (by rw [List.foldl_cons, Int.min_eq_left hle, h])
        · rw [Int.min_eq_right hle] at h
          exact .inr ⟨t, List.mem_cons_self, by rw [List.foldl_cons, Int.min_eq_right hle, h]⟩
      · exact .inr ⟨u, List.mem_cons_of_mem t hu, h⟩

theorem soonest_foldl {l : EventLoop κ φ} {first : Timer φ} {rest : List (Timer φ)} (h : l.timers = first :: rest) :
    l.Soonest (l.timers.foldl (fun m t => min m t.when) first.when) := by
  obtain ⟨_, hle⟩ := foldl_min_le l.timers first.when
  refine ⟨?_, ?_⟩
  · rcases foldl_min_mem l.timers first.when with heq | hmem
    · exact ⟨first, by rw [h]; exact List.mem_cons_self, heq.symm⟩
    · exact hmem
  · rintro w ⟨t, ht, rfl⟩
    exact hle t ht

theorem exists_soonest {l : EventLoop κ φ} (h : l.timers ≠ []) : ∃ s, l.Soonest s := by
  obtain ⟨first, rest, htimers⟩ := List.exists_cons_of_ne_nil h
  exact ⟨_, soonest_foldl htimers⟩

theorem nextTimeout_of_deferred {l : EventLoop κ φ} (h : l.deferred ≠ []) (now : Int) : l.nextTimeout now = some 0 := by
  rw [nextTimeout, if_pos h]

theorem nextTimeout_of_nil {l : EventLoop κ φ} (hd : l.deferred = []) (ht : l.timers = []) (now : Int) :
    l.nextTimeout now = none := by
  rw [nextTimeout, if_neg (not_not.mpr hd), ht]

/-- With timers alone it is the whole milliseconds of the 64-bit difference to the
soonest deadline, no less than zero. -/
theorem nextTimeout_of_soonest {l : EventLoop κ φ} (hd : l.deferred = []) {s : Int} (hs : l.Soonest s) (now : Int) :
    l.nextTimeout now = some (max 0 (wrap64 (s - now) / nanosPerMilli)) := by
  rw [nextTimeout, if_neg (not_not.mpr hd)]
  split
  next hnil =>
    obtain ⟨⟨t, ht, _⟩, _⟩ := hs
    rw [hnil] at ht
    cases ht
  next first rest htimers =>
    rw [(soonest_foldl htimers).unique hs, ← max_zero_tdiv]
    refine congrArg some ?_
    split <;> omega

/-- The `int` that is handed to `::poll`, by the loop's `next_timeout` at this reading. -/
def pollTimeout (l : EventLoop κ φ) (now : Int) : Int := toPollTimeout (l.nextTimeout now)

/-- The wait is not forever, and no longer than the whole milliseconds until `s`. -/
def WakesBy (l : EventLoop κ φ) (now s : Int) : Prop :=
  0 ≤ l.pollTimeout now ∧ l.pollTimeout now ≤ max 0 ((s - now) / nanosPerMilli)

/-- What is left of the milliseconds until `s` when the 64-bit difference is narrowed to an
unsigned `int`. -/
def narrowedMillis (s now : Int) : Int := max 0 (wrap64 (s - now) / nanosPerMilli) % 2 ^ 32

/-- The narrowed time is no longer than the true one, unless the difference underflows. -/
theorem narrowedMillis_le_iff (s now : Int) :
    narrowedMillis s now ≤ max 0 ((s - now) / nanosPerMilli) ↔ -2 ^ 63 ≤ s - now ∨ narrowedMillis s now = 0 := by
  have hnonneg : 0 ≤ narrowedMillis s now := Int.emod_nonneg _ (by decide)
  by_cases hlow : -2 ^ 63 ≤ s - now
  · have hwrap := wrap64_le hlow
    refine iff_of_true ?_ (.inl hlow)
    unfold narrowedMillis nanosPerMilli
    omega
  · have hpast : max 0 ((s - now) / nanosPerMilli) = 0 := by
      unfold nanosPerMilli
      omega
    rw [hpast]
    omega

/-- With timers pending, the loop does not sleep past the soonest deadline exactly when
deferred work is queued, or the milliseconds of the 64-bit difference keep bit 31 clear, as
all times below 2^31 ms do, and a difference that underflows leaves none of them. Without
timers and deferred work it waits forever. -/
theorem wakesBy_soonest_iff (l : EventLoop κ φ) (now : Int) :
    (l.timers = [] → l.deferred = [] → l.pollTimeout now = -1) ∧
    (l.timers ≠ [] → ∃ s, l.Soonest s ∧
      (l.WakesBy now s ↔ l.deferred ≠ [] ∨
        narrowedMillis s now < 2 ^ 31 ∧ (-2 ^ 63 ≤ s - now ∨ narrowedMillis s now = 0))) := by
  refine ⟨?_, ?_⟩
  · intro ht hd
    rw [pollTimeout, nextTimeout_of_nil hd ht]
    rfl
  · intro ht
    obtain ⟨s, hs⟩ := exists_soonest ht
    refine ⟨s, hs, ?_⟩
    by_cases hd : l.deferred = []
    · rw [WakesBy, pollTimeout, nextTimeout_of_soonest hd hs, ← narrowedMillis_le_iff]
      simp only [hd, ne_eq, not_true_eq_false, false_or, toPollTimeout, narrowedMillis]
      omega
    · rw [WakesBy, pollTimeout, nextTimeout_of_deferred hd, toPollTimeout]
      simp only [ne_eq, hd, not_false_eq_true, true_or, iff_true]
      omega

def oneTimer (delay : Int) : EventLoop Nat Nat := (setTimeout { poller := { wakeFd := 3 } } 0 delay 0).2

theorem oneTimer_soonest (delay : Int) : (oneTimer delay).Soonest (deadline 0 delay) := by
  refine ⟨⟨_, List.mem_singleton_self _, rfl⟩, ?_⟩
  rintro w ⟨t, ht, rfl⟩
  cases List.mem_singleton.mp ht
  exact Int.le_refl _

theorem oneTimer_wakesBy : ∃ s, (oneTimer 5).Soonest s ∧ s = 5000000 ∧ (oneTimer 5).WakesBy 1000000 s := by
  obtain ⟨s, hs, hiff⟩ := (wakesBy_soonest_iff (oneTimer 5) 1000000).2 (by decide)
  cases hs.unique (oneTimer_soonest 5)
  exact ⟨_, hs, by decide, hiff.mpr (.inr (by decide))⟩

/-- A delay of 2^31 ms is narrowed to a negative timeout, with which `::poll` waits forever. -/
theorem oneTimer_oversleeps :
    ∃ s, (oneTimer 2147483648).Soonest s ∧ s = 2147483648 * nanosPerMilli ∧
      (oneTimer 2147483648).pollTimeout 0 = -2147483648 ∧ ¬ (oneTimer 2147483648).WakesBy 0 s := by
  have htimeout : (oneTimer 2147483648).pollTimeout 0 = -2147483648 := by decide
  refine ⟨_, oneTimer_soonest _, by decide, htimeout, ?_⟩
  rintro ⟨hnonneg, _⟩
  rw [htimeout] at hnonneg
  omega

/-- Deferred functions are queued, or a timer is due at this reading. -/
def HasWork (l : EventLoop κ φ) (now : Int) : Prop := l.deferred ≠ [] ∨ ∃ t ∈ l.timers, t.when ≤ now

instance (l : EventLoop κ φ) (now : Int) : Decidable (l.HasWork now) :=
  inferInstanceAs (Decidable (l.deferred ≠ [] ∨ ∃ t ∈ l.timers, t.when ≤ now))

/-- What is due stays due, and `fire_due_timers` finds it. -/
theorem HasWork.found {l : EventLoop κ φ} {now later : Int} (h : l.HasWork now) (hle : now ≤ later) :
    l.deferred ≠ [] ∨ (l.takeDue later).1 ≠ [] := by
  rcases h with hd | ⟨t, ht, hdue⟩
  · exact .inl hd
  · refine .inr (List.ne_nil_of_mem (List.mem_map_of_mem (List.mem_filter.mpr ⟨ht, ?_⟩)))
    exact decide_eq_true (hdue.trans hle)

/-- The loop polls without blocking only when it has work, and then finds that work behind
the poll, exactly when it has work already or the soonest deadline is, by the 64-bit
difference, at least a millisecond away: a remainder below that is cut to zero. -/
theorem nextTimeout_zero_iff (l : EventLoop κ φ) (now : Int) :
    ((l.nextTimeout now = some 0 → l.HasWork now) ↔
      l.HasWork now ∨ ∀ s, l.Soonest s → nanosPerMilli ≤ wrap64 (s - now)) ∧
    ∀ later, now ≤ later → l.HasWork now → l.deferred ≠ [] ∨ (l.takeDue later).1 ≠ [] := by
  refine ⟨?_, fun later hle hwork => hwork.found hle⟩
  by_cases hwork : l.HasWork now
  · simp only [hwork, implies_true, true_or]
  have hd : l.deferred = [] := not_not.mp fun hne => hwork (.inl hne)
  simp only [hwork, imp_false, false_or]
  by_cases ht : l.timers = []
  · rw [nextTimeout_of_nil hd ht]
    refine iff_of_true (by simp) ?_
    rintro s ⟨⟨t, hmem, _⟩, _⟩
    rw [ht] at hmem
    cases hmem
  · obtain ⟨s, hs⟩ := exists_soonest ht
    have hall : (∀ r, l.Soonest r → nanosPerMilli ≤ wrap64 (r - now)) ↔ nanosPerMilli ≤ wrap64 (s - now) :=
      ⟨fun h => h s hs, fun h r hr => hr.unique hs ▸ h⟩
    rw [hall, nextTimeout_of_soonest hd hs, Option.some.injEq]
    unfold nanosPerMilli
    omega

/-- Half a millisecond before the deadline the timeout is zero, with nothing to run. -/
theorem oneTimer_spins :
    (oneTimer 1).nextTimeout 500000 = some 0 ∧ ¬ (oneTimer 1).HasWork 500000 := by
  decide

/-- The deadline that `set_timeout` stores is the true sum of the reading and the delay
exactly when that sum stays below 2^63 ns. It is the true sum or later than the reading
exactly when there is no delay, or the nanoseconds of the delay, wrapped to 64 bits, are
positive and added without overflow, or are added with an underflow. -/
theorem setTimeout_deadline_iff {now delay : Int} (hnow : Fits64 now) (hdelay : 0 ≤ delay) (l : EventLoop κ φ)
    (fn : φ) :
    ∃ t, (l.setTimeout now delay fn).2.timers = l.timers ++ [t] ∧ t.id = (l.setTimeout now delay fn).1 ∧ t.fn = fn ∧
      (t.when = now + delay * nanosPerMilli ↔ now + delay * nanosPerMilli < 2 ^ 63) ∧
      (t.when = now + delay * nanosPerMilli ∨ now < t.when ↔
        delay = 0 ∨ (0 < wrap64 (delay * nanosPerMilli) ∧ now + wrap64 (delay * nanosPerMilli) < 2 ^ 63) ∨
          now + wrap64 (delay * nanosPerMilli) < -2 ^ 63) ∧
      (now + delay * nanosPerMilli < 2 ^ 63 → 0 < delay → now < t.when) := by
  have hsum : deadline now delay = now + delay * nanosPerMilli ↔ now + delay * nanosPerMilli < 2 ^ 63 := by
    rw [deadline_eq_wrap64, wrap64_eq_iff]
    unfold Fits64 nanosPerMilli at *
    omega
  have hlater : now < deadline now delay ↔ (0 < wrap64 (delay * nanosPerMilli) ∧
      now + wrap64 (delay * nanosPerMilli) < 2 ^ 63) ∨ now + wrap64 (delay * nanosPerMilli) < -2 ^ 63 :=
    lt_wrap64_add_iff hnow (wrap64_fits _)
  have htrue (hlt : now + delay * nanosPerMilli < 2 ^ 63) (hpos : 0 < delay) : now < deadline now delay := by
    rw [hsum.mpr hlt]
    unfold nanosPerMilli
    omega
  refine ⟨_, rfl, rfl, rfl, hsum, ?_, htrue⟩
  change deadline now delay = _ ∨ now < deadline now delay ↔ _
  rw [← hlater, hsum]
  constructor
  · rintro (hlt | hlt)
    · rcases Int.lt_or_eq_of_le hdelay with hpos | hzero
      · exact .inr (htrue hlt hpos)
      · exact .inl hzero.symm
    · exact .inr hlt
  · rintro (rfl | hlt)
    · left
      have := hnow.2
      omega
    · exact .inr hlt

theorem oneTimer_trueDeadline :
    ∃ t, (oneTimer 86400000).timers = [t] ∧ t.when = 86400000000000 := by
  obtain ⟨t, htimers, -, -, hsum, -⟩ := @setTimeout_deadline_iff Nat Nat 0 86400000 (by decide) (by decide)
    { poller := { wakeFd := 3 } } 0
  exact ⟨t, htimers, hsum.mpr (by decide)⟩

/-- The largest delay wraps to a deadline one millisecond before the reading: the timer
is due at once. -/
theorem longest_delay_due :
    deadline 5000000 (2 ^ 63 - 1) = 4000000 ∧
      ((setTimeout ({ poller := { wakeFd := 3 } } : EventLoop Nat Nat) 5000000 (2 ^ 63 - 1) 7).2.takeDue 5000000).1 = [7] := by
  decide

end EventLoop
end CxNetworking.Core
