import CxNetworking.Core.Cycle
import CxNetworking.Lib.Execution

/-! The watch table and the poll set. A call updates the two under different locks, one
after the other, and calls on the same handle may pass each other in between. -/
namespace CxNetworking.Core
open Execution

def EventLoop.watchedMask {κ φ : Type*} (l : EventLoop κ φ) (h : Handle) : Option UInt16 :=
  l.watches[h]?.map fun e => toPollMask e.events

/-- The call has updated the table for `h` and not yet the poll set. -/
def Section.Settles (h : Handle) : Section → Prop
  | .setFd k _ | .updateFd k _ | .dropFd k => k = h
  | _ => False

/-- What the call wrote into the table is still there. -/
def Section.Current (l : EventLoop Nat Nat) : Section → Prop
  | .setFd h events | .updateFd h events => l.watches[h]?.map (·.events) = some events
  | .dropFd h => l.watches[h]? = none
  | _ => True

instance (l : EventLoop Nat Nat) (s : Section) : Decidable (s.Current l) :=
  match s with
  | .setFd _ _ | .updateFd _ _ | .dropFd _ => inferInstanceAs (Decidable (_ = _))
  | .setWatch _ _ _ | .setInterest _ _ | .eraseWatch _ | .pushDeferred _ | .pushTimer _ _ | .clearTimeout _
  | .interrupt => isTrue trivial

namespace Cycle

/-- Both tables at one handle, up to the calls that are between their two updates. -/
structure TalliedAt (c : Cycle) (h : Handle) : Prop where
  present : c.loop.watches[h]? ≠ none →
    c.loop.poller.fds[h]? ≠ none ∨ ∃ t events, c.inside t = some (.setFd h events)
  agree : c.loop.poller.fds[h]? = c.loop.watchedMask h ∨ ∃ t s, c.inside t = some s ∧ s.Settles h

/-- A call that comes to the poll set finds the table as it left it. -/
def KeepsTables (c : Cycle) : Label → Prop
  | .exec t _ => ∀ s ∈ c.inside t, s.Current c.loop
  | _ => True

instance (c : Cycle) (a : Label) : Decidable (c.KeepsTables a) :=
  match a with
  | .exec t _ => inferInstanceAs (Decidable (∀ s ∈ c.inside t, s.Current c.loop))
  | .loop _ | .poll _ | .ret | .call _ _ | .quit _ => isTrue trivial

section Exec

variable {c : Cycle} {t : Nat} {s : Section} {now : Int}

theorem TalliedAt.keep {h : Handle} (hc : c.TalliedAt h) (hs : c.inside t = some s) (hother : ¬ s.Settles h)
    (hwatch : (c.exec t now s).loop.watches[h]? = c.loop.watches[h]?)
    (hfd : (c.exec t now s).loop.poller.fds[h]? = c.loop.poller.fds[h]?) : (c.exec t now s).TalliedAt h := by
  have hstay : ∀ u s', c.inside u = some s' → s'.Settles h → (c.exec t now s).inside u = some s' := by
    intro u s' hu hsettles
    refine inside_exec_of_ne now hs hu ?_
    rintro rfl
    exact hother hsettles
  refine ⟨fun hw => ?_, ?_⟩
  · rw [hwatch] at hw
    rw [hfd]
    refine (hc.present hw).imp_right ?_
    rintro ⟨u, events, hu⟩
    exact ⟨u, events, hstay u _ hu rfl⟩
  · simp only [EventLoop.watchedMask, hwatch, hfd]
    refine hc.agree.imp_right ?_
    rintro ⟨u, s', hu, hsettles⟩
    exact ⟨u, s', hstay u s' hu hsettles, hsettles⟩

theorem inside_exec (c : Cycle) (t : Nat) (now : Int) (s : Section) :
    (c.exec t now s).inside t = s.next c.loop := Function.update_self ..

theorem setWatch_tallied {k : Handle} {events : Interest} {cb : Nat} (hc : ∀ h, c.TalliedAt h)
    (hs : c.inside t = some (.setWatch k events cb)) (h : Handle) :
    (c.exec t now (.setWatch k events cb)).TalliedAt h := by
  by_cases hk : k = h
  · subst hk
    have hnext := inside_exec c t now (.setWatch k events cb)
    exact ⟨fun _ => .inr ⟨t, events, hnext⟩, .inr ⟨t, _, hnext, rfl⟩⟩
  · refine (hc h).keep hs id ?_ rfl
    simp [exec, Section.effect, EventLoop.setWatch, Std.ExtTreeMap.getElem?_insert, hk]

theorem setInterest_tallied {k : Handle} {events : Interest} (hc : ∀ h, c.TalliedAt h)
    (hs : c.inside t = some (.setInterest k events)) (h : Handle) :
    (c.exec t now (.setInterest k events)).TalliedAt h := by
  have hnext := inside_exec c t now (.setInterest k events)
  have hloop : (c.exec t now (.setInterest k events)).loop = (c.loop.setInterest k events).getD c.loop := rfl
  cases he : c.loop.watches[k]? with
  | none =>
      have hsame : (c.exec t now (.setInterest k events)).loop = c.loop := by
        rw [hloop, EventLoop.setInterest, he, Option.map_none, Option.getD_none]
      exact (hc h).keep hs id (by rw [hsame]) (by rw [hsame])
  | some e =>
      have hset : (c.exec t now (.setInterest k events)).loop =
          { c.loop with watches := c.loop.watches.insert k { e with events } } := by
        rw [hloop, EventLoop.setInterest, he, Option.map_some, Option.getD_some]
      simp only [Section.next, EventLoop.setInterest, he, Option.map_some] at hnext
      by_cases hk : k = h
      · subst hk
        refine ⟨fun _ => ?_, .inr ⟨t, _, hnext, rfl⟩⟩
        rw [hset]
        refine ((hc k).present (by simp [he])).imp_right ?_
        rintro ⟨u, events', hu⟩
        exact ⟨u, events', inside_exec_of_ne now hs hu (by simp)⟩
      · refine (hc h).keep hs id ?_ (by rw [hset])
        rw [hset]
        simp [Std.ExtTreeMap.getElem?_insert, hk]

theorem eraseWatch_tallied {k : Handle} (hc : ∀ h, c.TalliedAt h) (hs : c.inside t = some (.eraseWatch k))
    (h : Handle) : (c.exec t now (.eraseWatch k)).TalliedAt h := by
  by_cases hk : k = h
  · subst hk
    refine ⟨fun hw => (hw ?_).elim, .inr ⟨t, _, inside_exec c t now (.eraseWatch k), rfl⟩⟩
    simp [exec, Section.effect, EventLoop.eraseWatch]
  · refine (hc h).keep hs id ?_ rfl
    simp [exec, Section.effect, EventLoop.eraseWatch, Std.ExtTreeMap.getElem?_erase, hk]

theorem watchedMask_of_events {l : EventLoop Nat Nat} {h : Handle} {events : Interest}
    (he : l.watches[h]?.map (·.events) = some events) : l.watchedMask h = some (toPollMask events) := by
  obtain ⟨e, hw, rfl⟩ := Option.map_eq_some_iff.mp he
  rw [EventLoop.watchedMask, hw, Option.map_some]

theorem setFd_tallied {k : Handle} {events : Interest} (hc : ∀ h, c.TalliedAt h)
    (hs : c.inside t = some (.setFd k events)) (hok : c.loop.watches[k]?.map (·.events) = some events) (h : Handle) :
    (c.exec t now (.setFd k events)).TalliedAt h := by
  by_cases hk : k = h
  · subst hk
    have hfd : (c.exec t now (.setFd k events)).loop.poller.fds[k]? = some (toPollMask events) := by
      simp [exec, Section.effect, EventLoop.setFd, Poller.set]
    exact ⟨fun _ => .inl (by simp [hfd]), .inl (hfd.trans (watchedMask_of_events hok).symm)⟩
  · refine (hc h).keep hs hk rfl ?_
    simp [exec, Section.effect, EventLoop.setFd, Poller.set, Std.ExtTreeMap.getElem?_insert, hk]

/-- `update` may find the handle missing: a `watch` that has not come to the poll set yet
will add it. -/
theorem updateFd_tallied {k : Handle} {events : Interest} (hc : ∀ h, c.TalliedAt h)
    (hs : c.inside t = some (.updateFd k events)) (hok : c.loop.watches[k]?.map (·.events) = some events)
    (h : Handle) : (c.exec t now (.updateFd k events)).TalliedAt h := by
  have hpoller : (c.exec t now (.updateFd k events)).loop.poller =
      c.loop.poller.setIfPresent k (toPollMask events) := rfl
  by_cases hmem : k ∈ c.loop.poller.fds
  · rw [Poller.setIfPresent, if_pos hmem] at hpoller
    by_cases hk : k = h
    · subst hk
      have hfd : (c.exec t now (.updateFd k events)).loop.poller.fds[k]? = some (toPollMask events) := by
        simp [hpoller]
      exact ⟨fun _ => .inl (by simp [hfd]), .inl (hfd.trans (watchedMask_of_events hok).symm)⟩
    · refine (hc h).keep hs hk rfl ?_
      simp [hpoller, Std.ExtTreeMap.getElem?_insert, hk]
  · rw [Poller.setIfPresent, if_neg hmem] at hpoller
    by_cases hk : k = h
    · subst hk
      have hwatched : c.loop.watches[k]? ≠ none := by
        intro hnone
        simp [hnone] at hok
      obtain ⟨u, events', hu⟩ := ((hc k).present hwatched).resolve_left (by simpa using hmem)
      have hu' := inside_exec_of_ne now hs hu (by simp)
      exact ⟨fun _ => .inr ⟨u, events', hu'⟩, .inr ⟨u, _, hu', rfl⟩⟩
    · exact (hc h).keep hs hk rfl (by rw [hpoller])

theorem dropFd_tallied {k : Handle} (hc : ∀ h, c.TalliedAt h) (hs : c.inside t = some (.dropFd k))
    (hok : c.loop.watches[k]? = none) (h : Handle) : (c.exec t now (.dropFd k)).TalliedAt h := by
  by_cases hk : k = h
  · subst hk
    have hwatch : (c.exec t now (.dropFd k)).loop.watches[k]? = none := hok
    refine ⟨fun hw => (hw hwatch).elim, .inl ?_⟩
    rw [EventLoop.watchedMask, hwatch, Option.map_none]
    simp [exec, Section.effect, EventLoop.dropFd, Poller.erase]
  · refine (hc h).keep hs hk rfl ?_
    simp [exec, Section.effect, EventLoop.dropFd, Poller.erase, Std.ExtTreeMap.getElem?_erase, hk]

theorem exec_tallied (hc : ∀ h, c.TalliedAt h) (hs : c.inside t = some s) (hok : c.KeepsTables (.exec t now))
    (h : Handle) : (c.exec t now s).TalliedAt h := by
  have hok := hok s hs
  cases s with
  | setWatch => exact setWatch_tallied hc hs h
  | setInterest => exact setInterest_tallied hc hs h
  | eraseWatch => exact eraseWatch_tallied hc hs h
  | setFd => exact setFd_tallied hc hs hok h
  | updateFd => exact updateFd_tallied hc hs hok h
  | dropFd => exact dropFd_tallied hc hs hok h
  | pushDeferred | pushTimer | clearTimeout | interrupt => exact (hc h).keep hs id rfl rfl

end Exec

theorem TalliedAt.same {c d : Cycle} {h : Handle} (hc : c.TalliedAt h) (hinside : d.inside = c.inside)
    (hwatches : d.loop.watches = c.loop.watches) (hfds : d.loop.poller.fds = c.loop.poller.fds) : d.TalliedAt h := by
  refine ⟨?_, ?_⟩
  · rw [hinside, hwatches, hfds]
    exact hc.present
  · rw [EventLoop.watchedMask, hinside, hwatches, hfds]
    exact hc.agree

theorem advance_tables {c d : Cycle} {now : Int} (hd : Advance c now d) :
    d.inside = c.inside ∧ d.loop.watches = c.loop.watches ∧ d.loop.poller.fds = c.loop.poller.fds := by
  cases hd with
  | @collect pfds =>
      refine ⟨rfl, rfl, ?_⟩
      simp only [EventLoop.collect, Poller.drain]
      split
      · rfl
      · split <;> rfl
  | stay | begin | snapshot | swap | deferredDone | runDeferred | fire | timersDone | runTimer | dispatchDone | leave
    | skip | find | invoke => exact ⟨rfl, rfl, rfl⟩

theorem step_tallied {c d : Cycle} {a : Label} (hc : ∀ h, c.TalliedAt h) (hok : c.KeepsTables a)
    (hd : c.step a = some d) : ∀ h, d.TalliedAt h := by
  intro h
  rcases step_spec hd with ⟨now, -, -, hd⟩ | ⟨ms, pfds, outcome, -, -, hd⟩ | ⟨-, -, -, rfl⟩ |
    ⟨t, r, -, hout, -, rfl⟩ | ⟨t, now, s, rfl, hs, rfl⟩ | ⟨q, -, rfl⟩
  · obtain ⟨hinside, hwatches, hfds⟩ := advance_tables hd
    exact (hc h).same hinside hwatches hfds
  · cases hd <;> exact (hc h).same rfl rfl rfl
  · exact (hc h).same rfl rfl rfl
  · refine ⟨fun hw => ((hc h).present hw).imp_right ?_, (hc h).agree.imp_right ?_⟩
    · rintro ⟨u, events, hu⟩
      exact ⟨u, events, inside_call hout hu _⟩
    · rintro ⟨u, s, hu, hsettles⟩
      exact ⟨u, s, inside_call hout hu _, hsettles⟩
  · exact exec_tallied hc hs hok h
  · exact (hc h).same rfl rfl rfl

/-- In every run in which each call that comes to the poll set finds the watch table as it
left it there, as when calls on one handle do not overlap: whenever no call is under way
the poll set has exactly the watched handles, each with the mask of its entry. -/
theorem tables_agree (wakeFd : Handle) {as : List Label} (hok : Along step KeepsTables (start wakeFd) as) :
    Throughout step (fun c => (∀ t, c.inside t = none) → ∀ h : Handle,
      c.loop.poller.fds[h]? = c.loop.watches[h]?.map fun e => toPollMask e.events) (start wakeFd) as := by
  have hstart : ∀ h, (start wakeFd).TalliedAt h := fun h => ⟨fun hw => by simp [start] at hw, .inl rfl⟩
  refine (throughout_of_along (I := fun c => ∀ h, c.TalliedAt h) (fun _ _ _ => step_tallied) hstart hok).mono ?_
  intro c hc hidle h
  refine (hc h).agree.resolve_right ?_
  rintro ⟨t, s, ht, -⟩
  cases (hidle t).symm.trans ht

/-- One thread watches a descriptor while another modifies it, then unwatches it. -/
def orderedCalls : List Label :=
  [.call 1 (.watch 5 .read), .exec 1 0, .call 2 (.modify 5 .read), .exec 2 0, .exec 2 0, .exec 1 0, .exec 1 0,
    .exec 2 0, .call 1 (.modify 5 .write), .exec 1 0, .exec 1 0, .exec 1 0, .call 2 (.watch 6 .read), .exec 2 0,
    .exec 2 0, .exec 2 0, .call 2 (.unwatch 6), .exec 2 0, .exec 2 0, .exec 2 0]

theorem orderedCalls_agree :
    (run step (start 3) orderedCalls).isSome ∧
      Throughout step (fun c => (∀ t, c.inside t = none) → ∀ h : Handle,
        c.loop.poller.fds[h]? = c.loop.watches[h]?.map fun e => toPollMask e.events) (start 3) orderedCalls :=
  ⟨by decide, tables_agree 3 (by decide)⟩

/-- A `watch` is overtaken by an `unwatch` of the same handle. -/
def overtakenCalls : List Label :=
  [.call 1 (.watch 5 .read), .exec 1 0, .call 2 (.unwatch 5), .exec 2 0, .exec 2 0, .exec 2 0, .exec 1 0, .exec 1 0]

/-- Both calls have returned, and the handle is polled but not watched. -/
theorem overtakenCalls_disagree :
    ∃ c, run step (start 3) overtakenCalls = some c ∧ (∀ t, c.inside t = none) ∧
      c.loop.poller.fds[(5 : Handle)]? = some POLLIN ∧ c.loop.watches[(5 : Handle)]? = none := by
  have hend : (run step (start 3) overtakenCalls).map
      (fun c => (c.loop.poller.fds[(5 : Handle)]?, c.loop.watches[(5 : Handle)]?)) = some (some POLLIN, none) := by
    decide
  have hidle : ∀ t, (run step (start 3) overtakenCalls).map (·.inside t) = some none
    | 0 => by decide
    | 1 => by decide
    | 2 => by decide
    | _ + 3 => rfl
  obtain ⟨c, hc, hend⟩ := Option.map_eq_some_iff.mp hend
  rw [hc] at hidle
  exact ⟨c, hc, fun t => Option.some.inj (hidle t), by simp_all⟩

end Cycle
end CxNetworking.Core
