import CxNetworking.Core.Cycle
import CxNetworking.Lib.Execution

/-! Which readiness a cycle dispatches. The ready list is a member that outlives the
cycle and only a successful `::poll` renews it, so an interrupted `::poll` leaves the
list of an earlier cycle to be dispatched. -/
namespace CxNetworking.Core
open Execution

/-- The latest return of `::poll` in a history, with the history up to it. -/
structure LastPoll where
  pfds : List PollFd
  outcome : PollOutcome
  before : List Note

def lastPoll : List Note → Option LastPoll
  | [] => none
  | .polled pfds outcome :: before => some { pfds, outcome, before }
  | _ :: earlier => lastPoll earlier

/-- The poll came back with nonzero `revents` for the handle of `ev`, and `ev` carries
their translation. The first entry of the vector is the eventfd. -/
def LastPoll.Reports (p : LastPoll) (ev : Event) : Prop :=
  ∃ revents, p.outcome = .returned revents ∧ ∃ q ∈ (report p.pfds revents).drop 1,
    q.revents ≠ 0 ∧ ev.handle = q.fd ∧ ev.what = toReady q.revents

/-- Every fd callback of the history was called for a handle that the `::poll` of its
own cycle reported, with the readiness reported. -/
def FreshCalls : List Note → Prop
  | [] => True
  | .invoked _ ev :: earlier => (∃ p, lastPoll earlier = some p ∧ p.Reports ev) ∧ FreshCalls earlier
  | _ :: earlier => FreshCalls earlier

/-- The calls so far were fresh, and if the latest `::poll` was interrupted then the
event list is empty. -/
structure Fresh (c : Cycle) : Prop where
  calls : FreshCalls c.log
  interrupted : ∀ p, lastPoll c.log = some p → p.outcome = .interrupted → c.loop.ready = []

/-- The events of this cycle that have not been dispatched yet. -/
def Cycle.inFlight (c : Cycle) : List Event :=
  match c.phase with
  | .idle | .waiting _ | .polling _ _ => []
  | .polled pfds => translate pfds
  | .swapping | .deferred _ | .timers | .due _ => c.loop.ready
  | .dispatch rest => rest
  | .calling _ ev rest => ev :: rest

def Note.Plain : Note → Prop
  | .polled _ _ | .invoked _ _ => False
  | _ => True

theorem lastPoll_plain {n : Note} (h : n.Plain) (log : List Note) : lastPoll (n :: log) = lastPoll log := by
  cases n with
  | polled | invoked => exact h.elim
  | watched | unwatched | ranDeferred | ranTimer => rfl

theorem freshCalls_plain {n : Note} (h : n.Plain) (log : List Note) :
    FreshCalls (n :: log) ↔ FreshCalls log := by
  cases n with
  | polled | invoked => exact h.elim
  | watched | unwatched | ranDeferred | ranTimer => exact Iff.rfl

/-- The invariant: the undispatched events are those the cycle's `::poll` reported. -/
structure Current (c : Cycle) : Prop where
  fresh : Fresh c
  reported : ∀ ev ∈ c.inFlight, ∃ p, lastPoll c.log = some p ∧ p.Reports ev
  renewed : ∀ pfds, c.phase = .polled pfds → ∀ p, lastPoll c.log = some p → p.outcome ≠ .interrupted

theorem start_current (wakeFd : Handle) : Current (Cycle.start wakeFd) where
  fresh := ⟨trivial, fun _ _ _ => rfl⟩
  reported := fun _ h => nomatch h
  renewed := fun _ h => nomatch h

theorem Current.plain {c d : Cycle} (h : Current c)
    (hlog : d.log = c.log ∨ ∃ n, n.Plain ∧ d.log = n :: c.log)
    (hready : d.loop.ready = c.loop.ready) (hflight : ∀ ev ∈ d.inFlight, ev ∈ c.inFlight)
    (hpolled : ∀ pfds, d.phase = .polled pfds → c.phase = .polled pfds) : Current d := by
  have hlast : lastPoll d.log = lastPoll c.log := by
    rcases hlog with hlog | ⟨n, hn, hlog⟩
    · rw [hlog]
    · rw [hlog, lastPoll_plain hn]
  have hcalls : FreshCalls d.log ↔ FreshCalls c.log := by
    rcases hlog with hlog | ⟨n, hn, hlog⟩
    · rw [hlog]
    · rw [hlog, freshCalls_plain hn]
  refine ⟨⟨hcalls.mpr h.fresh.calls, ?_⟩, ?_, ?_⟩
  · rw [hlast, hready]
    exact h.fresh.interrupted
  · rw [hlast]
    exact fun ev hev => h.reported ev (hflight ev hev)
  · rw [hlast]
    exact fun pfds hp => h.renewed pfds (hpolled pfds hp)

theorem Section.notes_plain (s : Section) : s.notes = [] ∨ ∃ n, n.Plain ∧ s.notes = [n] := by
  cases s with
  | setWatch h events cb => exact .inr ⟨.watched h cb, trivial, rfl⟩
  | eraseWatch h => exact .inr ⟨.unwatched h, trivial, rfl⟩
  | setFd | setInterest | updateFd | dropFd | pushDeferred | pushTimer | clearTimeout | interrupt =>
      exact .inl rfl

theorem Section.effect_ready (s : Section) (now : Int) (l : EventLoop Nat Nat) :
    (s.effect now l).ready = l.ready := by
  cases s with
  | setInterest h events =>
      simp only [Section.effect, EventLoop.setInterest]
      cases l.watches[h]? <;> rfl
  | setWatch | setFd | updateFd | eraseWatch | dropFd | pushDeferred | pushTimer | clearTimeout | interrupt =>
      rfl

theorem exec_current {c : Cycle} (h : Current c) (t : Nat) (now : Int) (s : Section) :
    Current (c.exec t now s) := by
  refine h.plain ?_ (s.effect_ready now c.loop) ?_ fun _ hp => hp
  · rcases s.notes_plain with hs | ⟨n, hn, hs⟩
    · exact .inl (by simp only [Cycle.exec, hs, List.nil_append])
    · exact .inr ⟨n, hn, by simp only [Cycle.exec, hs, List.singleton_append]⟩
  · intro ev hev
    simpa only [Cycle.inFlight, Cycle.exec, s.effect_ready] using hev

theorem advance_current {c d : Cycle} {now : Int} (h : Current c) (hd : Cycle.Advance c now d) :
    Current d := by
  cases hd with
  | stay | begin | snapshot | swap | deferredDone | fire | timersDone | dispatchDone | leave | skip | find =>
      apply h.plain <;> simp_all [Cycle.inFlight, EventLoop.swapDeferred, EventLoop.takeDue]
  | runDeferred | runTimer =>
      apply h.plain <;> simp_all [Cycle.inFlight, Cycle.enter, Note.Plain]
  | collect hp =>
      refine ⟨⟨h.fresh.calls, fun p hlast hint => (h.renewed _ hp p hlast hint).elim⟩, ?_, fun _ hq => nomatch hq⟩
      intro ev hev
      refine h.reported ev ?_
      rw [Cycle.inFlight, hp]
      exact hev
  | @invoke cb ev rest hp =>
      have hflight : c.inFlight = ev :: rest := by rw [Cycle.inFlight, hp]
      refine ⟨⟨⟨h.reported ev (by simp [hflight]), h.fresh.calls⟩, h.fresh.interrupted⟩, ?_, fun _ hq => nomatch hq⟩
      intro ev' hev
      exact h.reported ev' (hflight ▸ List.mem_cons_of_mem ev hev)

/-- An interrupted `::poll` finds the ready list empty. -/
def NoStaleList (c : Cycle) (a : Label) : Prop := a = .poll .interrupted → c.loop.ready = []

instance (c : Cycle) (a : Label) : Decidable (NoStaleList c a) := inferInstanceAs (Decidable (_ → _))

theorem answer_current {c d : Cycle} {pfds : List PollFd} {outcome : PollOutcome} (h : Current c)
    (hok : NoStaleList c (.poll outcome)) (hd : Cycle.Answer c pfds outcome d) : Current d := by
  cases hd with
  | interrupted =>
      have hready : c.loop.ready = [] := hok rfl
      refine ⟨⟨h.fresh.calls, fun _ _ _ => hready⟩, ?_, fun _ hq => nomatch hq⟩
      intro ev hev
      change ev ∈ c.loop.ready at hev
      simp [hready] at hev
  | failed =>
      refine ⟨⟨h.fresh.calls, ?_⟩, fun _ hev => (nomatch hev), fun _ hq => nomatch hq⟩
      rintro p hlast hint
      cases hlast
      cases hint
  | @returned revents hlen =>
      refine ⟨⟨h.fresh.calls, ?_⟩, ?_, ?_⟩
      · rintro p hlast hint
        cases hlast
        cases hint
      · intro ev hev
        exact ⟨_, rfl, revents, rfl, mem_translate.mp hev⟩
      · rintro _ _ p hlast hint
        cases hlast
        cases hint

theorem step_current {c d : Cycle} {a : Label} (h : Current c) (hok : NoStaleList c a)
    (hd : c.step a = some d) : Current d := by
  rcases Cycle.step_spec hd with ⟨now, -, -, hd⟩ | ⟨ms, pfds, outcome, rfl, -, hd⟩ | ⟨-, -, -, rfl⟩ |
    ⟨t, r, -, -, -, rfl⟩ | ⟨t, now, s, -, -, rfl⟩ | ⟨q, -, rfl⟩
  · exact advance_current h hd
  · exact answer_current h hok hd
  · exact h.plain (.inl rfl) rfl (fun _ hev => hev) fun _ hp => hp
  · exact h.plain (.inl rfl) rfl (fun _ hev => hev) fun _ hp => hp
  · exact exec_current h t now s
  · exact h.plain (.inl rfl) rfl (fun _ hev => hev) fun _ hp => hp

/-- An interrupted `::poll` that finds events of an earlier cycle hands them on. -/
theorem stale_of_interrupted {c d : Cycle} {a : Label} (hbad : ¬ NoStaleList c a)
    (hd : c.step a = some d) : ¬ Fresh d := by
  simp only [NoStaleList, Classical.not_imp] at hbad
  obtain ⟨rfl, hready⟩ := hbad
  rcases Cycle.step_spec hd with ⟨now, ha, -⟩ | ⟨ms, pfds, outcome, ha, -, hd⟩ | ⟨ha, -⟩ |
    ⟨t, r, ha, -⟩ | ⟨t, now, s, ha, -⟩ | ⟨q, ha, -⟩ <;> cases ha
  cases hd
  exact fun hfresh => hready (hfresh.interrupted _ rfl rfl)

/-- A run of the loop dispatches only readiness that the same cycle's `::poll` reported,
and its interrupted polls yield no events, exactly if no `::poll` is interrupted while
the ready list still holds the events of an earlier cycle. -/
theorem fresh_iff_no_stale_list (wakeFd : Handle) {as : List Label} {c : Cycle}
    (h : run Cycle.step (Cycle.start wakeFd) as = some c) :
    Throughout Cycle.step Fresh (Cycle.start wakeFd) as ↔
      Along Cycle.step NoStaleList (Cycle.start wakeFd) as := by
  constructor
  · intro hfresh
    exact along_of_throughout (fun _ _ _ => stale_of_interrupted) hfresh h
  · intro hok
    exact (throughout_of_along (fun _ _ _ => step_current) (start_current wakeFd) hok).mono
      fun _ hc => hc.fresh

def watchCall (h : Handle) (events : Interest) : List Label :=
  [.call 1 (.watch h events), .exec 1 0, .exec 1 0, .exec 1 0]

/-- The steps of `iterate` behind a `::poll` that came back with one ready descriptor
or was interrupted, up to the call of an fd callback. -/
def dispatchOne : List Label := [.loop 0, .loop 0, .loop 0, .loop 0, .loop 0, .loop 0]

/-- Descriptor 5 is watched for reading. The first `::poll` is interrupted while nothing
is ready, the second reports the descriptor and its callback is called. -/
def renewedRun : List Label :=
  watchCall 5 .read ++ [.loop 0, .loop 0, .poll .interrupted, .loop 0, .loop 0, .loop 0, .loop 0, .loop 0,
    .loop 0, .loop 0, .poll (.returned [0, POLLIN]), .loop 0] ++ dispatchOne

theorem renewedRun_fresh : Throughout Cycle.step Fresh (Cycle.start 3) renewedRun := by
  obtain ⟨c, hc⟩ := Option.isSome_iff_exists.mp
    (by decide : (run Cycle.step (Cycle.start 3) renewedRun).isSome)
  exact (fresh_iff_no_stale_list 3 hc).mpr (by decide)

/-- Descriptor 5 is watched for reading. One cycle polls it readable and calls its
callback, and the `::poll` of the next cycle is interrupted. -/
def staleRun : List Label :=
  watchCall 5 .read ++ [.loop 0, .loop 0, .poll (.returned [0, POLLIN]), .loop 0] ++ dispatchOne ++
    [.ret, .loop 0, .loop 0, .loop 0, .poll .interrupted] ++ dispatchOne

/-- The callback is called again in the interrupted cycle. -/
theorem staleRun_not_fresh :
    ∃ c, run Cycle.step (Cycle.start 3) staleRun = some c ∧ ¬ Fresh c ∧
      ∃ ev pfds before, c.log = .invoked 0 ev :: .polled pfds .interrupted :: before := by
  have hlog : (run Cycle.step (Cycle.start 3) staleRun).map (·.log) =
      some [.invoked 0 ⟨5, { readable := true }⟩, .polled [⟨3, 1, 0⟩, ⟨5, 1, 0⟩] .interrupted,
        .invoked 0 ⟨5, { readable := true }⟩, .polled [⟨3, 1, 0⟩, ⟨5, 1, 0⟩] (.returned [0, 1]),
        .watched 5 0] := by
    decide
  obtain ⟨c, hc, hlog⟩ := Option.map_eq_some_iff.mp hlog
  refine ⟨c, hc, fun hfresh => ?_, _, _, _, hlog⟩
  have hcalls := hfresh.calls
  rw [hlog] at hcalls
  obtain ⟨p, hp, revents, hout, -⟩ := hcalls.1
  cases hp
  cases hout

end CxNetworking.Core
