import CxNetworking.Core.Cycle
import CxNetworking.Lib.Execution

/-! The poller without a kernel: a table of interests, a flag and a condition variable. It
reports no events yet; what an event loop needs of it is that `wait` blocks, and that an
`interrupt` ends it. -/
namespace CxNetworking.Core
open Execution

inductive StandaloneCall where
  | add (h : UInt64) (i : Interest)
  | update (h : UInt64) (i : Interest)
  | drop (h : UInt64)
  | interrupt
  deriving DecidableEq, Repr

/-- Where a call stands: before its section on the table, before it sets the flag, or before
`notify_all`, which it calls without the mutex. -/
inductive StandaloneStage where
  | table (c : StandaloneCall)
  | poke
  | notify
  deriving DecidableEq, Repr

/-- Where the loop thread stands in `wait`; `timed` tells `wait_for` from `wait`. In `testing`
it has the mutex and looks at the flag, in `expired` it returns whatever the flag is. -/
inductive Waiter where
  | out
  | testing (timed : Bool)
  | asleep (timed : Bool)
  | expired
  deriving DecidableEq, Repr

/-- The poller among its threads, with the number of pokes, of returns of `wait`, and of
those that found the time to be up. -/
structure StandalonePoller where
  fds : Std.ExtTreeMap UInt64 Interest := ∅
  poked : Bool := false
  inside : Nat → Option StandaloneStage := fun _ => none
  waiter : Waiter := .out
  pokes : Nat := 0
  returns : Nat := 0
  timeouts : Nat := 0

/-- `wake` is a wakeup for no reason. -/
inductive StandaloneLabel where
  | call (t : Nat) (c : StandaloneCall)
  | exec (t : Nat)
  | wait (timed : Bool)
  | test
  | wake
  | expire
  deriving DecidableEq, Repr

namespace StandaloneCall

def apply (fds : Std.ExtTreeMap UInt64 Interest) : StandaloneCall → Std.ExtTreeMap UInt64 Interest
  | .add h i => fds.insert h i
  | .update h i => if h ∈ fds then fds.insert h i else fds
  | .drop h => fds.erase h
  | .interrupt => fds

def enter : StandaloneCall → StandaloneStage
  | .interrupt => .poke
  | c => .table c

end StandaloneCall

/-- `notify_all` has a thread that sleeps look at the flag again. -/
def Waiter.notified : Waiter → Waiter
  | .asleep timed => .testing timed
  | w => w

/-- A return that is due to the time and has not happened yet. -/
def Waiter.late : Waiter → Nat
  | .expired => 1
  | _ => 0

theorem Waiter.late_notified (w : Waiter) : w.notified.late = w.late := by cases w <;> rfl

namespace StandalonePoller

def finish (s : StandalonePoller) : StandalonePoller :=
  { s with poked := false, waiter := .out, returns := s.returns + 1 }

def exec (s : StandalonePoller) (t : Nat) : StandaloneStage → StandalonePoller
  | .table c => { s with fds := c.apply s.fds, inside := Function.update s.inside t (some .poke) }
  | .poke => { s with poked := true, pokes := s.pokes + 1, inside := Function.update s.inside t (some .notify) }
  | .notify => { s with waiter := s.waiter.notified, inside := Function.update s.inside t none }

def step (s : StandalonePoller) : StandaloneLabel → Option StandalonePoller
  | .call t c =>
    if s.inside t = none ∧ (t = loopThread → s.waiter = .out) then
      some { s with inside := Function.update s.inside t (some c.enter) }
    else none
  | .exec t => (s.inside t).map (s.exec t)
  | .wait timed =>
    if s.waiter = .out ∧ s.inside loopThread = none then some { s with waiter := .testing timed } else none
  | .test =>
    match s.waiter with
    | .testing timed => some (if s.poked then s.finish else { s with waiter := .asleep timed })
    | .expired => some s.finish
    | .out | .asleep _ => none
  | .wake =>
    match s.waiter with
    | .asleep timed => some { s with waiter := .testing timed }
    | .out | .testing _ | .expired => none
  | .expire =>
    match s.waiter with
    | .asleep true => some { s with waiter := .expired, timeouts := s.timeouts + 1 }
    | .asleep false | .out | .testing _ | .expired => none

inductive Step (s : StandalonePoller) : StandaloneLabel → StandalonePoller → Prop
  | call {t c} : s.inside t = none → Step s (.call t c) { s with inside := Function.update s.inside t (some c.enter) }
  | exec {t stage} : s.inside t = some stage → Step s (.exec t) (s.exec t stage)
  | wait {timed} : s.waiter = .out → Step s (.wait timed) { s with waiter := .testing timed }
  | poked {timed} : s.waiter = .testing timed → s.poked = true → Step s .test s.finish
  | sleep {timed} : s.waiter = .testing timed → s.poked = false → Step s .test { s with waiter := .asleep timed }
  | expired : s.waiter = .expired → Step s .test s.finish
  | wake {timed} : s.waiter = .asleep timed → Step s .wake { s with waiter := .testing timed }
  | expire : s.waiter = .asleep true → Step s .expire { s with waiter := .expired, timeouts := s.timeouts + 1 }

variable {s u : StandalonePoller} {a : StandaloneLabel}

theorem step_spec (h : s.step a = some u) : Step s a u := by
  cases a with
  | call t c =>
      obtain ⟨⟨ht, -⟩, h⟩ := Option.ite_none_right_eq_some.mp h
      cases h
      exact .call ht
  | exec t =>
      obtain ⟨stage, hstage, rfl⟩ := Option.map_eq_some_iff.mp h
      exact .exec hstage
  | wait timed =>
      obtain ⟨⟨hw, -⟩, h⟩ := Option.ite_none_right_eq_some.mp h
      cases h
      exact .wait hw
  | test =>
      simp only [step] at h
      split at h
      · next hw =>
          cases h
          split
          · exact .poked hw ‹_›
          · exact .sleep hw (Bool.eq_false_iff.mpr ‹_›)
      · next hw =>
          cases h
          exact .expired hw
      · cases h
      · cases h
  | wake =>
      simp only [step] at h
      split at h
      · next hw =>
          cases h
          exact .wake hw
      · cases h
      · cases h
      · cases h
  | expire =>
      simp only [step] at h
      split at h
      · next hw =>
          cases h
          exact .expire hw
      · cases h
      · cases h
      · cases h
      · cases h

/-- A flag that a sleeping thread has not seen will be announced, and each return of `wait`
is paid for by a poke or by the time. -/
structure Sound (s : StandalonePoller) : Prop where
  alert : ∀ timed, s.waiter = .asleep timed → s.poked = true → ∃ t, s.inside t = some .notify
  paid : s.returns + s.poked.toNat + s.waiter.late ≤ s.pokes + s.timeouts

theorem start_sound : Sound {} := ⟨by simp, by simp [Waiter.late]⟩

theorem exists_notify {t : Nat} {stage : Option StandaloneStage} (hne : s.inside t ≠ some .notify)
    (h : ∃ i, s.inside i = some .notify) : ∃ i, Function.update s.inside t stage i = some .notify := by
  obtain ⟨i, hi⟩ := h
  refine ⟨i, ?_⟩
  rw [Function.update_of_ne]
  · exact hi
  · rintro rfl
    exact hne hi

theorem exec_sound (hs : s.Sound) {t : Nat} {stage : StandaloneStage} (hstage : s.inside t = some stage) :
    (s.exec t stage).Sound := by
  cases stage with
  | table c =>
      refine ⟨fun timed hw hpoked => ?_, hs.paid⟩
      exact exists_notify (by simp [hstage]) (hs.alert timed hw hpoked)
  | poke =>
      refine ⟨fun _ _ _ => ⟨t, Function.update_self t _ _⟩, ?_⟩
      have := hs.paid
      have := Bool.toNat_le s.poked
      simp only [exec, Bool.toNat_true]
      omega
  | notify =>
      refine ⟨fun timed hw => ?_, ?_⟩
      · -- nobody sleeps behind `notify_all`
        simp only [exec, Waiter.notified] at hw
        split at hw
        · cases hw
        · next hne => exact absurd hw (hne timed)
      · simp only [exec, Waiter.late_notified]
        exact hs.paid

theorem step_sound (hs : s.Sound) (h : s.step a = some u) : u.Sound := by
  have hpaid := hs.paid
  cases step_spec h with
  | call ht => exact ⟨fun timed hw hpoked => exists_notify (by simp [ht]) (hs.alert timed hw hpoked), hpaid⟩
  | exec hstage => exact exec_sound hs hstage
  | wait hw =>
      refine ⟨by simp, ?_⟩
      simpa [hw, Waiter.late] using hpaid
  | poked hw hpoked =>
      refine ⟨by simp [finish], ?_⟩
      simpa [hw, hpoked, finish, Waiter.late] using hpaid
  | sleep hw hpoked =>
      refine ⟨by simp [hpoked], ?_⟩
      simpa [hw, Waiter.late] using hpaid
  | expired hw =>
      refine ⟨by simp [finish], ?_⟩
      simp only [hw, Waiter.late] at hpaid
      simp only [finish, Bool.toNat_false, Waiter.late]
      omega
  | wake hw =>
      refine ⟨by simp, ?_⟩
      simpa [hw, Waiter.late] using hpaid
  | expire hw =>
      refine ⟨by simp, ?_⟩
      simp only [hw, Waiter.late] at hpaid
      simp only [Waiter.late]
      omega

/-- An `interrupt` ends a `wait`, and nothing else does but the time. Whatever calls
interleave, a thread that sleeps while the flag is set is woken by a `notify_all` that is
still to come, and then returns; and `wait` has returned no more often than the flag was
set and the time was up. -/
theorem interrupt_wakes {as : List StandaloneLabel} (h : run step {} as = some s) :
    (∀ timed, s.waiter = .asleep timed → s.poked = true →
      ∃ t v w, s.step (.exec t) = some v ∧ v.step .test = some w ∧ w.waiter = .out ∧ w.returns = s.returns + 1) ∧
      s.returns ≤ s.pokes + s.timeouts := by
  have hs : s.Sound := run_invariant (fun _ _ _ hi hs => step_sound hi hs) start_sound h
  constructor
  · intro timed hw hpoked
    obtain ⟨t, ht⟩ := hs.alert timed hw hpoked
    refine ⟨t, s.exec t .notify, (s.exec t .notify).finish, ?_, ?_, rfl, rfl⟩
    · rw [step, ht]
      rfl
    · simp [step, exec, hw, hpoked, Waiter.notified]
  · have := hs.paid
    omega

/-- The flag is set twice while the loop thread sleeps, and the first `notify_all` is late. -/
def lateNotify : List StandaloneLabel :=
  [.wait false, .test, .call 1 (.add 7 .read), .exec 1, .exec 1, .call 2 .interrupt, .exec 2]

theorem lateNotify_wakes :
    ∃ s, run step {} lateNotify = some s ∧ s.waiter = .asleep false ∧ s.pokes = 2 ∧
      ∃ t v w, s.step (.exec t) = some v ∧ v.step .test = some w ∧ w.waiter = .out ∧ w.returns = s.returns + 1 :=
  ⟨_, rfl, rfl, rfl, (interrupt_wakes (h := (rfl : run step {} lateNotify = _))).1 false rfl rfl⟩

end StandalonePoller
end CxNetworking.Core
