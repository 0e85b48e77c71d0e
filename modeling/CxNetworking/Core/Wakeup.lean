import CxNetworking.Core.Cycle
import CxNetworking.Lib.History

/-! No wakeup is lost. Every update that concerns a blocked loop is followed by a write to
the eventfd, and the eventfd is drained before the deferred functions are taken; so what
a blocked loop does not know of is announced by a count that is still there or by a
thread that is about to add to it. -/
namespace CxNetworking.Core
open Execution

/-- The clock and the loop as a call of `next_timeout` found them. -/
structure Reading where
  now : Int
  loop : EventLoop Nat Nat

/-- The loop thread has computed its timeout and `::poll` has not come back. -/
def Phase.Blocking : Phase → Prop
  | .waiting _ | .polling _ _ => True
  | _ => False

namespace Cycle

def lastReading (c : Cycle) (a : Label) (read : Reading) : Reading :=
  match a, c.phase with
  | .loop now, .idle => ⟨now, c.loop⟩
  | _, _ => read

/-- The eventfd holds a count, or a thread is about to write to it. -/
def Signalled (c : Cycle) : Prop := 0 < c.loop.poller.wake ∨ ∃ t, c.inside t = some .interrupt

/-- What the loop thread knows is up to date, or it is going to be woken. -/
structure Wakeful (c : Cycle) (read : Reading) : Prop where
  outside : c.busy = false → c.inside loopThread = none
  calm : c.phase.Blocking → c.busy = false
  /-- Only between the drain and the swap may functions be queued without a signal. -/
  queued : c.phase ≠ .swapping → c.loop.deferred = [] ∨ c.Signalled
  timed : c.phase.Blocking →
    (read.loop.deferred = [] ∧ ∀ timer ∈ c.loop.timers, timer ∈ read.loop.timers) ∨ c.Signalled
  computed : ∀ timeout, c.phase = .waiting timeout → timeout = read.loop.nextTimeout read.now
  polled : ∀ ms pfds, c.phase = .polling ms pfds →
    ms = toPollTimeout (read.loop.nextTimeout read.now) ∧ (pfds = c.loop.poller.pollfds ∨ c.Signalled)

theorem Wakeful.unblocked {d : Cycle} {read : Reading} (hphase : ¬ d.phase.Blocking)
    (houtside : d.busy = false → d.inside loopThread = none)
    (hqueued : d.phase ≠ .swapping → d.loop.deferred = [] ∨ d.Signalled) : Wakeful d read where
  outside := houtside
  calm h := (hphase h).elim
  queued := hqueued
  timed h := (hphase h).elim
  computed _ h := (hphase (h ▸ trivial)).elim
  polled _ _ h := (hphase (h ▸ trivial)).elim

theorem advance_wakeful {c d : Cycle} {read : Reading} {now : Int} (h : Wakeful c read) (hbusy : c.busy = false)
    (hd : Advance c now d) : Wakeful d (c.lastReading (.loop now) read) := by
  have hinside := h.outside hbusy
  cases hd with
  | stay hp _ =>
      exact .unblocked (by simp [hp, Phase.Blocking]) h.outside h.queued
  | begin hp _ =>
      have hqueued := h.queued (by simp [hp])
      have hread : c.lastReading (.loop now) read = ⟨now, c.loop⟩ := by simp only [lastReading, hp]
      rw [hread]
      exact ⟨fun _ => hinside, fun _ => hbusy, fun _ => hqueued, fun _ => hqueued.imp_left fun hq => ⟨hq, fun _ ht => ht⟩,
        fun timeout ht => (Phase.waiting.inj ht).symm, by simp⟩
  | @snapshot timeout hp =>
      have hread : c.lastReading (.loop now) read = read := by simp only [lastReading, hp]
      have hblock : c.phase.Blocking := hp ▸ trivial
      rw [hread]
      refine ⟨fun _ => hinside, fun _ => hbusy, fun _ => h.queued (by simp [hp]), fun _ => h.timed hblock, by simp, ?_⟩
      rintro ms pfds ⟨⟩
      exact ⟨congrArg toPollTimeout (h.computed timeout hp), .inl rfl⟩
  | collect hp => exact .unblocked id (fun _ => hinside) fun hne => (hne rfl).elim
  | swap hp => exact .unblocked id (fun _ => hinside) fun _ => .inl rfl
  | deferredDone hp | fire hp | timersDone hp | dispatchDone hp | leave hp _ | skip hp _ _ | find hp _ _ =>
      exact .unblocked id (fun _ => hinside) fun _ => h.queued (by simp [hp])
  | runDeferred hp | runTimer hp | invoke hp =>
      exact .unblocked id (fun _ => hinside) fun _ => h.queued (by simp [hp])

theorem answer_wakeful {c d : Cycle} {read : Reading} {ms : Int} {pfds : List PollFd} {outcome : PollOutcome}
    (h : Wakeful c read) (hp : c.phase = .polling ms pfds) (hd : Answer c pfds outcome d) : Wakeful d read := by
  have hqueued := h.queued (by simp [hp])
  cases hd with
  | interrupted | failed | returned => exact .unblocked id h.outside fun _ => hqueued

/-- A section either announces itself, or changes nothing that a blocked loop goes by. -/
theorem exec_cases {c : Cycle} {t : Nat} {s : Section} (now : Int) (hs : c.inside t = some s) :
    (c.exec t now s).Signalled ∨
      ((c.exec t now s).loop.deferred = c.loop.deferred ∧
        (c.exec t now s).loop.poller = c.loop.poller ∧
        (∀ timer ∈ (c.exec t now s).loop.timers, timer ∈ c.loop.timers) ∧
        (c.Signalled → (c.exec t now s).Signalled)) := by
  have hnext : s.next c.loop = some .interrupt → (c.exec t now s).Signalled := fun hn =>
    .inr ⟨t, by simp [exec, hn]⟩
  have hkept : s ≠ .interrupt → (c.exec t now s).loop.poller = c.loop.poller →
      c.Signalled → (c.exec t now s).Signalled := by
    rintro hne hpoller (hwake | ⟨u, hu⟩)
    · exact .inl (hpoller ▸ hwake)
    · exact .inr ⟨u, inside_exec_of_ne now hs hu (Ne.symm hne)⟩
  cases s with
  | setFd | updateFd | dropFd | pushDeferred | pushTimer => exact .inl (hnext rfl)
  | interrupt => exact .inl (.inl (Nat.succ_pos _))
  | setWatch | eraseWatch => exact .inr ⟨rfl, rfl, fun _ ht => ht, hkept (by simp) rfl⟩
  | clearTimeout id => exact .inr ⟨rfl, rfl, fun _ ht => (List.mem_filter.mp ht).1, hkept (by simp) rfl⟩
  | setInterest k events =>
      have hloop : ∀ l', c.loop.setInterest k events = some l' →
          l'.deferred = c.loop.deferred ∧ l'.poller = c.loop.poller ∧ l'.timers = c.loop.timers := by
        intro l' hl
        obtain ⟨e, -, rfl⟩ := Option.map_eq_some_iff.mp hl
        exact ⟨rfl, rfl, rfl⟩
      have hexec : (c.exec t now (.setInterest k events)).loop = (c.loop.setInterest k events).getD c.loop := rfl
      cases hl : c.loop.setInterest k events with
      | none =>
          rw [hl, Option.getD_none] at hexec
          exact .inr ⟨by rw [hexec], by rw [hexec], by simp [hexec], hkept (by simp) (by rw [hexec])⟩
      | some l' =>
          rw [hl, Option.getD_some] at hexec
          obtain ⟨hd, hp, ht⟩ := hloop l' hl
          exact .inr ⟨by rw [hexec, hd], by rw [hexec, hp], by simp [hexec, ht], hkept (by simp) (by rw [hexec, hp])⟩

theorem exec_wakeful {c : Cycle} {read : Reading} {t : Nat} {s : Section} (now : Int) (h : Wakeful c read)
    (hs : c.inside t = some s) : Wakeful (c.exec t now s) read := by
  have houtside : c.busy = false → (c.exec t now s).inside loopThread = none := by
    intro hb
    have ht : loopThread ≠ t := by
      rintro rfl
      cases hs.symm.trans (h.outside hb)
    simpa [exec, ht] using h.outside hb
  rcases exec_cases now hs with hsig | ⟨hdeferred, hpoller, htimers, hsig⟩
  · exact ⟨houtside, h.calm, fun _ => .inr hsig, fun _ => .inr hsig, h.computed,
      fun ms pfds hp => ⟨(h.polled ms pfds hp).1, .inr hsig⟩⟩
  · refine ⟨houtside, h.calm, fun hp => ?_, fun hp => ?_, h.computed, fun ms pfds hp => ?_⟩
    · rw [hdeferred]
      exact (h.queued hp).imp_right hsig
    · exact (h.timed hp).imp (fun ht => ⟨ht.1, fun timer hm => ht.2 timer (htimers timer hm)⟩) hsig
    · rw [hpoller]
      exact (h.polled ms pfds hp).imp_right fun hq => hq.imp_right hsig

theorem call_wakeful {c : Cycle} {read : Reading} {t : Nat} (h : Wakeful c read) (hout : c.inside t = none)
    (hbusy : t = loopThread → c.busy = true) (s : Section) :
    Wakeful { c with inside := Function.update c.inside t (some s), calls := c.calls + 1 } read := by
  have hsig : c.Signalled →
      Signalled { c with inside := Function.update c.inside t (some s), calls := c.calls + 1 } := by
    rintro (hwake | ⟨u, hu⟩)
    · exact .inl hwake
    · exact .inr ⟨u, inside_call hout hu s⟩
  refine ⟨fun hb => ?_, h.calm, fun hp => (h.queued hp).imp_right hsig, fun hp => (h.timed hp).imp_right hsig,
    h.computed, fun ms pfds hp => (h.polled ms pfds hp).imp_right fun hq => hq.imp_right hsig⟩
  have ht : loopThread ≠ t := by
    rintro rfl
    cases hb.symm.trans (hbusy rfl)
  simpa [ht] using h.outside hb

theorem step_wakeful {c d : Cycle} {read : Reading} {a : Label} (h : Wakeful c read) (hd : c.step a = some d) :
    Wakeful d (c.lastReading a read) := by
  rcases step_spec hd with ⟨now, rfl, hbusy, hd⟩ | ⟨ms, pfds, outcome, rfl, hp, hd⟩ | ⟨rfl, -, hinside, rfl⟩ |
    ⟨t, r, rfl, hout, hbusy, rfl⟩ | ⟨t, now, s, rfl, hs, rfl⟩ | ⟨q, rfl, rfl⟩
  · exact advance_wakeful h hbusy hd
  · exact answer_wakeful h hp hd
  · exact ⟨fun _ => hinside, fun _ => rfl, h.queued, h.timed, h.computed, h.polled⟩
  · exact call_wakeful h hout hbusy _
  · exact exec_wakeful now h hs
  · exact ⟨h.outside, h.calm, h.queued, h.timed, h.computed, h.polled⟩

theorem start_wakeful (wakeFd : Handle) (read : Reading) : Wakeful (start wakeFd) read :=
  .unblocked id (fun _ => rfl) fun _ => .inl rfl

/-- In every run, whenever the loop thread is about to block or blocked in `::poll` while
the eventfd's count is zero and no other thread stands between its update and its write
to the eventfd: no function is deferred, the polled vector is the poller's current one,
and the timeout was computed from timers among which are all that are pending now. -/
theorem no_lost_wakeup (wakeFd : Handle) {as : List Label} {c : Cycle} (h : run step (start wakeFd) as = some c)
    {read : Reading} (hread : read = history step lastReading (start wakeFd) as ⟨0, (start wakeFd).loop⟩)
    (hblock : c.phase.Blocking) (hwake : c.loop.poller.wake = 0)
    (hpoke : ∀ t, t ≠ loopThread → c.inside t ≠ some .interrupt) :
    c.loop.deferred = [] ∧
    (∀ timeout, c.phase = .waiting timeout → timeout = read.loop.nextTimeout read.now) ∧
    (∀ ms pfds, c.phase = .polling ms pfds →
      pfds = c.loop.poller.pollfds ∧ ms = toPollTimeout (read.loop.nextTimeout read.now)) ∧
    read.loop.deferred = [] ∧ ∀ timer ∈ c.loop.timers, timer ∈ read.loop.timers := by
  have hend : Wakeful c read := hread ▸ history_invariant (fun _ _ _ _ hi _ => step_wakeful hi)
    (start_wakeful wakeFd _) (Along.trivial _ _) h
  have hquiet : ¬ c.Signalled := by
    rintro (hpos | ⟨t, ht⟩)
    · exact Nat.lt_irrefl 0 (hwake ▸ hpos)
    · refine hpoke t ?_ ht
      rintro rfl
      cases ht.symm.trans (hend.outside (hend.calm hblock))
  have hphase : c.phase ≠ .swapping := fun hp => by simp [hp, Phase.Blocking] at hblock
  refine ⟨(hend.queued hphase).resolve_right hquiet, hend.computed, fun ms pfds hp => ?_,
    (hend.timed hblock).resolve_right hquiet⟩
  obtain ⟨hms, hpfds⟩ := hend.polled ms pfds hp
  exact ⟨hpfds.resolve_right hquiet, hms⟩

/-- Another thread watches a descriptor and sets a timer; the loop is woken, runs a cycle
and blocks again. -/
def blockedRun : List Label :=
  [.call 1 (.watch 5 .read), .exec 1 0, .exec 1 0, .exec 1 0, .call 1 (.setTimeout 10), .exec 1 0, .exec 1 0,
    .loop 0, .loop 0, .poll (.returned [POLLIN, 0]), .loop 0, .loop 0, .loop 0, .loop 0, .loop 0, .loop 0,
    .loop 3, .loop 3]

theorem blockedRun_informed :
    ∃ c read, run step (start 3) blockedRun = some c ∧
      read = history step lastReading (start 3) blockedRun ⟨0, (start 3).loop⟩ ∧
      c.phase = .polling 9 [{ fd := 3, events := POLLIN }, { fd := 5, events := POLLIN }] ∧
      c.loop.timers = [{ id := 1, when := 10000000, fn := 1 }] ∧ c.loop.deferred = [] ∧
      9 = toPollTimeout (read.loop.nextTimeout read.now) ∧ ∀ timer ∈ c.loop.timers, timer ∈ read.loop.timers := by
  have hfacts : (run step (start 3) blockedRun).map (fun c => (c.phase, c.loop.timers, c.loop.poller.wake)) =
      some (.polling 9 [{ fd := 3, events := POLLIN }, { fd := 5, events := POLLIN }],
        [{ id := 1, when := 10000000, fn := 1 }], 0) := by
    decide
  have hpoke : ∀ t, (run step (start 3) blockedRun).map (·.inside t) = some none
    | 0 => by decide
    | 1 => by decide
    | _ + 2 => rfl
  obtain ⟨c, hc, hfacts⟩ := Option.map_eq_some_iff.mp hfacts
  simp only [Prod.mk.injEq] at hfacts
  obtain ⟨hphase, htimers, hwake⟩ := hfacts
  rw [hc] at hpoke
  obtain ⟨hdeferred, -, hpolled, -, hread⟩ := no_lost_wakeup 3 hc rfl (hphase ▸ trivial) hwake
    fun t _ ht => by cases (Option.some.inj (hpoke t)).symm.trans ht
  exact ⟨c, _, hc, rfl, hphase, htimers, hdeferred, (hpolled _ _ hphase).2, hread⟩

end Cycle
end CxNetworking.Core
