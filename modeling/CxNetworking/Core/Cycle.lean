import CxNetworking.Core.EventLoop
import Mathlib.Logic.Function.Basic

/-! The event loop among its threads. The loop thread walks through `iterate`, cut
where it takes or drops a lock, enters `::poll` or calls a function it was handed;
every thread may be inside a call of the public interface, one locked section at a
time. What a callback does is not fixed: while one runs, the loop thread may make any
calls. Functions are named by the number of the call that handed them over, so the
callback of a watch names its registration. -/
namespace CxNetworking.Core

/-- A call of the public interface, without the function it hands over. -/
inductive Request where
  | watch (h : Handle) (events : Interest)
  | modify (h : Handle) (events : Interest)
  | unwatch (h : Handle)
  | defer
  | setTimeout (delay : Int)
  | clearTimeout (id : Nat)
  deriving DecidableEq, Repr

/-- The next section of a call that is under way. -/
inductive Section where
  | setWatch (h : Handle) (events : Interest) (cb : Nat)
  | setFd (h : Handle) (events : Interest)
  | setInterest (h : Handle) (events : Interest)
  | updateFd (h : Handle) (events : Interest)
  | eraseWatch (h : Handle)
  | dropFd (h : Handle)
  | pushDeferred (fn : Nat)
  | pushTimer (delay : Int) (fn : Nat)
  | clearTimeout (id : Nat)
  | interrupt
  deriving DecidableEq, Repr

def Request.enter (fn : Nat) : Request → Section
  | .watch h events => .setWatch h events fn
  | .modify h events => .setInterest h events
  | .unwatch h => .eraseWatch h
  | .defer => .pushDeferred fn
  | .setTimeout delay => .pushTimer delay fn
  | .clearTimeout id => .clearTimeout id

/-- What the history records, newest first in the log. -/
inductive Note where
  | watched (h : Handle) (cb : Nat)
  | unwatched (h : Handle)
  | polled (pfds : List PollFd) (outcome : PollOutcome)
  | ranDeferred (fn : Nat)
  | ranTimer (fn : Nat)
  | invoked (cb : Nat) (ev : Event)
  deriving DecidableEq, Repr

namespace Section

def effect (now : Int) (l : EventLoop Nat Nat) : Section → EventLoop Nat Nat
  | .setWatch h events cb => l.setWatch h events cb
  | .setFd h events => l.setFd h events
  | .setInterest h events => (l.setInterest h events).getD l
  | .updateFd h events => l.updateFd h events
  | .eraseWatch h => l.eraseWatch h
  | .dropFd h => l.dropFd h
  | .pushDeferred fn => l.pushDeferred fn
  | .pushTimer delay fn => l.pushTimer now delay fn
  | .clearTimeout id => l.clearTimeout id
  | .interrupt => l.interrupt

/-- The section that follows in the same call, or none if the call returns. -/
def next (l : EventLoop Nat Nat) : Section → Option Section
  | .setWatch h events _ => some (.setFd h events)
  | .setFd _ _ => some .interrupt
  | .setInterest h events => (l.setInterest h events).map fun _ => .updateFd h events
  | .updateFd _ _ => some .interrupt
  | .eraseWatch h => some (.dropFd h)
  | .dropFd _ => some .interrupt
  | .pushDeferred _ => some .interrupt
  | .pushTimer _ _ => some .interrupt
  | .clearTimeout _ => none
  | .interrupt => none

/-- The sections that are not the first of their call. -/
inductive Later : Section → Prop
  | setFd (h : Handle) (events : Interest) : Later (.setFd h events)
  | updateFd (h : Handle) (events : Interest) : Later (.updateFd h events)
  | dropFd (h : Handle) : Later (.dropFd h)
  | interrupt : Later .interrupt

theorem next_later {l : EventLoop Nat Nat} {s s' : Section} (h : s.next l = some s') : s'.Later := by
  cases s with
  | setInterest k i =>
      obtain ⟨_, -, rfl⟩ := Option.map_eq_some_iff.mp h
      exact .updateFd k i
  | setWatch | setFd | updateFd | eraseWatch | dropFd | pushDeferred | pushTimer | clearTimeout | interrupt =>
      cases h <;> constructor

def notes : Section → List Note
  | .setWatch h _ cb => [.watched h cb]
  | .eraseWatch h => [.unwatched h]
  | _ => []

end Section

/-- Where the loop thread stands in `iterate`. -/
inductive Phase where
  | idle
  | waiting (timeout : Option Int)
  | polling (ms : Int) (pfds : List PollFd)
  | polled (pfds : List PollFd)
  | swapping
  | deferred (rest : List Nat)
  | timers
  | due (rest : List Nat)
  | dispatch (rest : List Event)
  | calling (cb : Nat) (ev : Event) (rest : List Event)
  deriving DecidableEq, Repr

/-- `busy` says that a function the loop was handed is running on its thread, and
`inside` which call each thread is in. -/
structure Cycle where
  loop : EventLoop Nat Nat
  phase : Phase := .idle
  busy : Bool := false
  inside : Nat → Option Section := fun _ => none
  calls : Nat := 0
  log : List Note := []

inductive Label where
  | loop (now : Int)
  | poll (outcome : PollOutcome)
  | ret
  | call (t : Nat) (r : Request)
  | exec (t : Nat) (now : Int)
  | quit (q : Bool)
  deriving DecidableEq, Repr

def loopThread : Nat := 0

namespace Cycle

def start (wakeFd : Handle) : Cycle := { loop := { poller := { wakeFd } } }

def enter (c : Cycle) (phase : Phase) (note : Note) : Cycle :=
  { c with phase, busy := true, log := note :: c.log }

/-- The loop thread's next step outside `::poll` and outside the functions it runs. -/
def advance (c : Cycle) (now : Int) : Option Cycle :=
  if c.busy then none
  else match c.phase with
    | .idle =>
      some (if c.loop.quitting then c else { c with phase := .waiting (c.loop.nextTimeout now) })
    | .waiting timeout =>
      some { c with phase := .polling (toPollTimeout timeout) c.loop.poller.pollfds }
    | .polling _ _ => none
    | .polled pfds => some { c with loop := c.loop.collect pfds, phase := .swapping }
    | .swapping =>
      some { c with loop := c.loop.swapDeferred.2, phase := .deferred c.loop.swapDeferred.1 }
    | .deferred [] => some { c with phase := .timers }
    | .deferred (fn :: rest) => some (c.enter (.deferred rest) (.ranDeferred fn))
    | .timers =>
      some { c with loop := (c.loop.takeDue now).2, phase := .due (c.loop.takeDue now).1 }
    | .due [] => some { c with phase := .dispatch c.loop.ready }
    | .due (fn :: rest) => some (c.enter (.due rest) (.ranTimer fn))
    | .dispatch [] => some { c with phase := .idle }
    | .dispatch (ev :: rest) =>
      if c.loop.quitting then some { c with phase := .idle }
      else match c.loop.watches[ev.handle]? with
        | none => some { c with phase := .dispatch rest }
        | some e => some { c with phase := .calling e.cb ev rest }
    | .calling cb ev rest => some (c.enter (.dispatch rest) (.invoked cb ev))

/-- `::poll` comes back. On `EINTR` the wait counts as zero events, on another error
`iterate` returns at once; neither touches `ready_`. -/
def answer (c : Cycle) (pfds : List PollFd) (outcome : PollOutcome) : Option Cycle :=
  let log := .polled pfds outcome :: c.log
  match outcome with
  | .interrupted => some { c with phase := .swapping, log }
  | .failed => some { c with phase := .idle, log }
  | .returned revents =>
    if revents.length = pfds.length then some { c with phase := .polled (report pfds revents), log }
    else none

def exec (c : Cycle) (t : Nat) (now : Int) (s : Section) : Cycle :=
  { c with
    loop := s.effect now c.loop
    inside := Function.update c.inside t (s.next c.loop)
    log := s.notes ++ c.log }

def step (c : Cycle) : Label → Option Cycle
  | .loop now => c.advance now
  | .poll outcome =>
    match c.phase with
    | .polling _ pfds => c.answer pfds outcome
    | _ => none
  | .ret => if c.busy ∧ c.inside loopThread = none then some { c with busy := false } else none
  | .call t r =>
    if c.inside t = none ∧ (t = loopThread → c.busy) then
      some { c with inside := Function.update c.inside t (some (r.enter c.calls)), calls := c.calls + 1 }
    else none
  | .exec t now => (c.inside t).map (c.exec t now)
  | .quit q => some { c with loop := { c.loop with quitting := q } }

/-- The loop thread's steps, one constructor for each way through `iterate`. -/
inductive Advance (c : Cycle) (now : Int) : Cycle → Prop
  | stay : c.phase = .idle → c.loop.quitting = true → Advance c now c
  | begin : c.phase = .idle → c.loop.quitting = false →
      Advance c now { c with phase := .waiting (c.loop.nextTimeout now) }
  | snapshot {timeout} : c.phase = .waiting timeout →
      Advance c now { c with phase := .polling (toPollTimeout timeout) c.loop.poller.pollfds }
  | collect {pfds} : c.phase = .polled pfds →
      Advance c now { c with loop := c.loop.collect pfds, phase := .swapping }
  | swap : c.phase = .swapping →
      Advance c now { c with loop := c.loop.swapDeferred.2, phase := .deferred c.loop.swapDeferred.1 }
  | deferredDone : c.phase = .deferred [] → Advance c now { c with phase := .timers }
  | runDeferred {fn rest} : c.phase = .deferred (fn :: rest) →
      Advance c now (c.enter (.deferred rest) (.ranDeferred fn))
  | fire : c.phase = .timers →
      Advance c now { c with loop := (c.loop.takeDue now).2, phase := .due (c.loop.takeDue now).1 }
  | timersDone : c.phase = .due [] → Advance c now { c with phase := .dispatch c.loop.ready }
  | runTimer {fn rest} : c.phase = .due (fn :: rest) →
      Advance c now (c.enter (.due rest) (.ranTimer fn))
  | dispatchDone : c.phase = .dispatch [] → Advance c now { c with phase := .idle }
  | leave {ev rest} : c.phase = .dispatch (ev :: rest) → c.loop.quitting = true →
      Advance c now { c with phase := .idle }
  | skip {ev rest} : c.phase = .dispatch (ev :: rest) → c.loop.quitting = false →
      c.loop.watches[ev.handle]? = none → Advance c now { c with phase := .dispatch rest }
  | find {ev rest e} : c.phase = .dispatch (ev :: rest) → c.loop.quitting = false →
      c.loop.watches[ev.handle]? = some e → Advance c now { c with phase := .calling e.cb ev rest }
  | invoke {cb ev rest} : c.phase = .calling cb ev rest →
      Advance c now (c.enter (.dispatch rest) (.invoked cb ev))

theorem advance_spec {c d : Cycle} {now : Int} (h : c.advance now = some d) :
    c.busy = false ∧ Advance c now d := by
  unfold advance at h
  split at h
  · cases h
  · refine ⟨Bool.eq_false_iff.mpr ‹_›, ?_⟩
    split at h
    · next hp =>
        cases h
        split
        · exact .stay hp ‹_›
        · exact .begin hp (Bool.eq_false_iff.mpr ‹_›)
    · next hp => cases h; exact .snapshot hp
    · cases h
    · next hp => cases h; exact .collect hp
    · next hp => cases h; exact .swap hp
    · next hp => cases h; exact .deferredDone hp
    · next hp => cases h; exact .runDeferred hp
    · next hp => cases h; exact .fire hp
    · next hp => cases h; exact .timersDone hp
    · next hp => cases h; exact .runTimer hp
    · next hp => cases h; exact .dispatchDone hp
    · next hp =>
        split at h
        · cases h; exact .leave hp ‹_›
        · next hq =>
            split at h
            · next hw => cases h; exact .skip hp (Bool.eq_false_iff.mpr hq) hw
            · next hw => cases h; exact .find hp (Bool.eq_false_iff.mpr hq) hw
    · next hp => cases h; exact .invoke hp

inductive Answer (c : Cycle) (pfds : List PollFd) : PollOutcome → Cycle → Prop
  | interrupted : Answer c pfds .interrupted
      { c with phase := .swapping, log := .polled pfds .interrupted :: c.log }
  | failed : Answer c pfds .failed { c with phase := .idle, log := .polled pfds .failed :: c.log }
  | returned {revents} : revents.length = pfds.length → Answer c pfds (.returned revents)
      { c with
        phase := .polled (report pfds revents)
        log := .polled pfds (.returned revents) :: c.log }

theorem answer_spec {c d : Cycle} {pfds : List PollFd} {outcome : PollOutcome}
    (h : c.answer pfds outcome = some d) : Answer c pfds outcome d := by
  cases outcome with
  | interrupted => cases h; exact .interrupted
  | failed => cases h; exact .failed
  | returned revents =>
      simp only [answer, Option.ite_none_right_eq_some] at h
      obtain ⟨hlen, h⟩ := h
      cases h
      exact .returned hlen

theorem step_spec {c d : Cycle} {a : Label} (h : c.step a = some d) :
    (∃ now, a = .loop now ∧ c.busy = false ∧ Advance c now d) ∨
    (∃ ms pfds outcome, a = .poll outcome ∧ c.phase = .polling ms pfds ∧ Answer c pfds outcome d) ∨
    (a = .ret ∧ c.busy = true ∧ c.inside loopThread = none ∧ d = { c with busy := false }) ∨
    (∃ t r, a = .call t r ∧ c.inside t = none ∧ (t = loopThread → c.busy = true) ∧
      d = { c with inside := Function.update c.inside t (some (r.enter c.calls)), calls := c.calls + 1 }) ∨
    (∃ t now s, a = .exec t now ∧ c.inside t = some s ∧ d = c.exec t now s) ∨
    (∃ q, a = .quit q ∧ d = { c with loop := { c.loop with quitting := q } }) := by
  cases a with
  | loop now => exact .inl ⟨now, rfl, advance_spec h⟩
  | poll outcome =>
      simp only [step] at h
      split at h
      · next ms pfds hp => exact .inr (.inl ⟨ms, pfds, outcome, rfl, hp, answer_spec h⟩)
      · cases h
  | ret =>
      simp only [step, Option.ite_none_right_eq_some] at h
      obtain ⟨⟨hb, hi⟩, h⟩ := h
      exact .inr (.inr (.inl ⟨rfl, hb, hi, (Option.some.inj h).symm⟩))
  | call t r =>
      simp only [step, Option.ite_none_right_eq_some] at h
      obtain ⟨⟨hi, hb⟩, h⟩ := h
      exact .inr (.inr (.inr (.inl ⟨t, r, rfl, hi, hb, (Option.some.inj h).symm⟩)))
  | exec t now =>
      obtain ⟨s, hs, hd⟩ := Option.map_eq_some_iff.mp h
      exact .inr (.inr (.inr (.inr (.inl ⟨t, now, s, rfl, hs, hd.symm⟩))))
  | quit q => exact .inr (.inr (.inr (.inr (.inr ⟨q, rfl, (Option.some.inj h).symm⟩))))

theorem inside_exec_of_ne {c : Cycle} {t u : Nat} {s s' : Section} (now : Int) (hs : c.inside t = some s)
    (hu : c.inside u = some s') (hne : s' ≠ s) : (c.exec t now s).inside u = some s' := by
  have hut : u ≠ t := by
    rintro rfl
    exact hne (Option.some.inj (hu.symm.trans hs))
  simpa [exec, hut] using hu

/-- Where a thread stands behind a section: in a later section of the same call, or, being
another one, where it was. -/
theorem inside_exec_cases {c : Cycle} {t u : Nat} {now : Int} {s s' : Section} (h : (c.exec t now s).inside u = some s') :
    s'.Later ∨ (u ≠ t ∧ c.inside u = some s') := by
  simp only [exec, Function.update_apply] at h
  split at h
  · exact .inl (Section.next_later h)
  · exact .inr ⟨‹_›, h⟩

theorem inside_call {c : Cycle} {t u : Nat} {s : Section} (hout : c.inside t = none) (hu : c.inside u = some s)
    (entered : Section) : Function.update c.inside t (some entered) u = some s := by
  have hut : u ≠ t := by
    rintro rfl
    cases hout.symm.trans hu
  simpa [hut] using hu

end Cycle
end CxNetworking.Core
