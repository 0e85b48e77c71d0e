import CxNetworking.Core.Deferred
import CxNetworking.Core.Dispatch
import CxNetworking.Core.Firing
import CxNetworking.Core.Reactor

/-! What a cycle does for those who wait for it. A deferred function, a due timer and a
reported event that a cycle finds behind `::poll` are served before it ends, and it ends
however much its functions queue: what they hand over is for the next cycle. -/
namespace CxNetworking.Core
open Execution

/-- What may wait for the loop thread behind `::poll`. -/
inductive Item where
  | deferred (fn : Nat)
  | timer (t : Timer Nat)
  | event (ev : Event)
  deriving DecidableEq, Repr

def Note.Serves : Note → Item → Prop
  | .ranDeferred ran, .deferred fn => ran = fn
  | .ranTimer ran, .timer t => ran = t.fn
  | .invoked _ called, .event ev => called = ev
  | _, _ => False

def Phase.Serving : Phase → Prop
  | .idle | .waiting _ | .polling _ _ => False
  | .polled _ | .swapping | .deferred _ | .timers | .due _ | .dispatch _ | .calling _ _ _ => True

/-- The cycle has taken both the deferred functions and the timers that it will run. -/
def Phase.Taken : Phase → Prop
  | .due _ | .dispatch _ | .calling _ _ _ => True
  | .idle | .waiting _ | .polling _ _ | .polled _ | .swapping | .deferred _ | .timers => False

namespace Cycle

variable {c d : Cycle} {a : Label} {item : Item}

/-- The item is before the loop thread in this cycle. -/
def Awaits (c : Cycle) : Item → Prop
  | .deferred fn =>
    match c.phase with
    | .polled _ | .swapping => fn ∈ c.loop.deferred
    | .deferred rest => fn ∈ rest
    | _ => False
  | .timer t =>
    match c.phase with
    | .polled _ | .swapping | .deferred _ | .timers => t ∈ c.loop.timers
    | .due rest => t.fn ∈ rest
    | _ => False
  | .event ev => ev ∈ c.inFlight

/-- What can take an item away from the cycle: nothing a deferred function, for a timer that
it is cleared, or is not due when the loop thread looks, and for an event that the handle is
no longer watched or the loop is quitting. -/
def Undisturbed (item : Item) (c : Cycle) (a : Label) : Prop :=
  match item with
  | .deferred _ => True
  | .timer t => ¬ c.Clears t.id a ∧ ∀ now, a = .loop now → c.phase = .timers → t.when ≤ now
  | .event ev => c.loop.quitting = false ∧ c.loop.watches[ev.handle]?.isSome = true

/-- The cycle has called what the item waits for since `log`. -/
def Served (item : Item) (log : List Note) (c : Cycle) : Prop :=
  ∃ new, c.log = new ++ log ∧ ∃ n ∈ new, n.Serves item

theorem advance_deferred {now : Int} {fn : Nat} (hw : c.Awaits (.deferred fn)) (h : Advance c now d) :
    d.Awaits (.deferred fn) ∨ d.log = .ranDeferred fn :: c.log := by
  cases h with
  | collect hp | swap hp =>
      simp only [Awaits, hp] at hw
      exact .inl hw
  | runDeferred hp =>
      simp only [Awaits, hp, List.mem_cons] at hw
      rcases hw with rfl | hw
      · exact .inr rfl
      · exact .inl hw
  | deferredDone hp =>
      simp only [Awaits, hp] at hw
      cases hw
  | stay hp _ | begin hp _ | snapshot hp | fire hp | timersDone hp | runTimer hp | dispatchDone hp | leave hp _
    | skip hp _ _ | find hp _ _ | invoke hp =>
      simp only [Awaits, hp] at hw

theorem advance_timer {now : Int} {t : Timer Nat} (hw : c.Awaits (.timer t)) (hdue : c.phase = .timers → t.when ≤ now)
    (h : Advance c now d) : d.Awaits (.timer t) ∨ d.log = .ranTimer t.fn :: c.log := by
  cases h with
  | collect hp | swap hp | deferredDone hp | runDeferred hp =>
      simp only [Awaits, hp] at hw
      exact .inl hw
  | fire hp =>
      simp only [Awaits, hp] at hw
      exact .inl (List.mem_map_of_mem (List.mem_filter.mpr ⟨hw, decide_eq_true (hdue hp)⟩))
  | @runTimer fn rest hp =>
      simp only [Awaits, hp, List.mem_cons] at hw
      rcases hw with he | hw
      · exact .inr (by rw [he]; rfl)
      · exact .inl hw
  | timersDone hp =>
      simp only [Awaits, hp] at hw
      cases hw
  | stay hp _ | begin hp _ | snapshot hp | dispatchDone hp | leave hp _ | skip hp _ _ | find hp _ _ | invoke hp =>
      simp only [Awaits, hp] at hw

theorem advance_event {now : Int} {ev : Event} (hw : c.Awaits (.event ev)) (hquit : c.loop.quitting = false)
    (hwatched : c.loop.watches[ev.handle]?.isSome = true) (h : Advance c now d) :
    d.Awaits (.event ev) ∨ ∃ cb, d.log = .invoked cb ev :: c.log := by
  simp only [Awaits] at hw ⊢
  cases h with
  | collect hp | swap hp | deferredDone hp | runDeferred hp | fire hp | timersDone hp | runTimer hp | find hp _ _ =>
      rw [inFlight, hp] at hw
      exact .inl hw
  | skip hp _ hnone =>
      rw [inFlight, hp] at hw
      rcases List.mem_cons.mp hw with rfl | hw
      · rw [hnone] at hwatched
        cases hwatched
      · exact .inl hw
  | @invoke cb first rest hp =>
      rw [inFlight, hp] at hw
      rcases List.mem_cons.mp hw with rfl | hw
      · exact .inr ⟨cb, rfl⟩
      · exact .inl hw
  | leave _ hq =>
      rw [hquit] at hq
      cases hq
  | stay hp _ | begin hp _ | snapshot hp | dispatchDone hp =>
      rw [inFlight, hp] at hw
      cases hw

theorem advance_awaits {now : Int} (hw : c.Awaits item) (hok : Undisturbed item c (.loop now)) (h : Advance c now d) :
    d.Awaits item ∨ ∃ n, d.log = n :: c.log ∧ n.Serves item := by
  cases item with
  | deferred fn => exact (advance_deferred hw h).imp_right fun hlog => ⟨.ranDeferred fn, hlog, rfl⟩
  | timer t => exact (advance_timer hw (hok.2 now rfl) h).imp_right fun hlog => ⟨.ranTimer t.fn, hlog, rfl⟩
  | event ev =>
      rcases advance_event hw hok.1 hok.2 h with hd | ⟨cb, hlog⟩
      · exact .inl hd
      · exact .inr ⟨.invoked cb ev, hlog, rfl⟩

/-- The other threads only add to what waits, but for `clear_timeout`. -/
theorem exec_awaits {t : Nat} {now : Int} {s : Section} (hw : c.Awaits item) (hs : c.inside t = some s)
    (hok : Undisturbed item c (.exec t now)) : (c.exec t now s).Awaits item := by
  cases item with
  | deferred fn =>
      have hsub : c.loop.deferred ⊆ (s.effect now c.loop).deferred := by
        by_cases hpush : ∃ fn, s = .pushDeferred fn
        · obtain ⟨fn, rfl⟩ := hpush
          exact List.subset_append_left _ _
        · rw [effect_deferred now c.loop fun fn he => hpush ⟨fn, he⟩]
          exact List.Subset.refl _
      simp only [Awaits, exec] at hw ⊢
      split at hw
      · exact hsub hw
      · exact hsub hw
      · exact hw
      · exact hw
  | timer u =>
      have hsub : u ∈ c.loop.timers → u ∈ (s.effect now c.loop).timers := by
        intro hu
        cases s with
        | pushTimer delay fn => exact List.mem_append_left _ hu
        | clearTimeout id =>
            refine List.mem_filter.mpr ⟨hu, bne_iff_ne.mpr ?_⟩
            rintro rfl
            exact hok.1 hs
        | setInterest h events =>
            simp only [Section.effect, EventLoop.setInterest]
            cases c.loop.watches[h]? <;> exact hu
        | setWatch _ _ _ | setFd _ _ | updateFd _ _ | eraseWatch _ | dropFd _ | pushDeferred _ | interrupt => exact hu
      simp only [Awaits, exec] at hw ⊢
      split at hw
      · exact hsub hw
      · exact hsub hw
      · exact hsub hw
      · exact hsub hw
      · exact hw
      · exact hw
  | event ev => simpa only [Awaits, inFlight, exec, s.effect_ready] using hw

/-- A step leaves an item that is not disturbed before the loop thread, or serves it. -/
theorem step_awaits (hw : c.Awaits item) (hok : Undisturbed item c a) (h : c.step a = some d) :
    d.Awaits item ∨ ∃ n, d.log = n :: c.log ∧ n.Serves item := by
  rcases step_spec h with ⟨now, rfl, -, hadv⟩ | ⟨ms, pfds, outcome, rfl, hp, -⟩ | ⟨rfl, -, -, rfl⟩ |
    ⟨t, r, rfl, -, -, rfl⟩ | ⟨t, now, s, rfl, hs, rfl⟩ | ⟨q, rfl, rfl⟩
  · exact advance_awaits hw hok hadv
  · -- nothing is before the loop thread while it is in `::poll`
    cases item <;> simp only [Awaits, inFlight, hp] at hw
    cases hw
  · exact .inl hw
  · exact .inl hw
  · exact .inl (exec_awaits hw hs hok)
  · exact .inl hw

theorem step_log (h : c.step a = some d) : ∃ new, d.log = new ++ c.log := by
  rcases step_spec h with ⟨now, rfl, -, hadv⟩ | ⟨ms, pfds, outcome, rfl, -, hans⟩ | ⟨rfl, -, -, rfl⟩ |
    ⟨t, r, rfl, -, -, rfl⟩ | ⟨t, now, s, rfl, -, rfl⟩ | ⟨q, rfl, rfl⟩
  · cases hadv with
    | runDeferred | runTimer | invoke => exact ⟨[_], rfl⟩
    | stay | begin | snapshot | collect | swap | deferredDone | fire | timersDone | dispatchDone | leave | skip | find =>
        exact ⟨[], rfl⟩
  · cases hans <;> exact ⟨[_], rfl⟩
  · exact ⟨[], rfl⟩
  · exact ⟨[], rfl⟩
  · exact ⟨s.notes, rfl⟩
  · exact ⟨[], rfl⟩

theorem Served.step {log : List Note} (hs : Served item log c) (h : c.step a = some d) : Served item log d := by
  obtain ⟨new, hnew, n, hn, hserves⟩ := hs
  obtain ⟨more, hmore⟩ := step_log h
  refine ⟨more ++ new, ?_, n, List.mem_append_right _ hn, hserves⟩
  rw [hmore, hnew, List.append_assoc]

/-- Since `log`, the item was served, or it still is before the loop thread. -/
def Looked (item : Item) (log : List Note) (c : Cycle) : Prop :=
  Served item log c ∨ (c.Awaits item ∧ ∃ new, c.log = new ++ log)

theorem step_looked {log : List Note} (hl : Looked item log c) (hok : Undisturbed item c a) (h : c.step a = some d) :
    Looked item log d := by
  rcases hl with hs | ⟨hw, new, hnew⟩
  · exact .inl (hs.step h)
  · rcases step_awaits hw hok h with hw | ⟨n, hn, hserves⟩
    · obtain ⟨more, hmore⟩ := step_log h
      exact .inr ⟨hw, more ++ new, by rw [hmore, hnew, List.append_assoc]⟩
    · exact .inl ⟨n :: new, by rw [hn, hnew, List.cons_append], n, List.mem_cons_self, hserves⟩

theorem Awaits.not_idle (hw : c.Awaits item) : c.phase ≠ .idle := by
  intro hp
  cases item <;> simp only [Awaits, inFlight, hp] at hw
  cases hw

/-- What a cycle finds behind `::poll` it serves before it ends, whatever its functions and
the other threads do meanwhile: a deferred function always, a timer unless it is cleared or
not due, an event as long as its handle is watched and the loop is not quitting. -/
theorem cycle_serves {as : List Label} (hw : c.Awaits item) (hok : Along step (Undisturbed item) c as)
    (h : run step c as = some d) : Served item c.log d ∨ (d.phase ≠ .idle ∧ d.Awaits item) := by
  have hlooked : Looked item c.log d :=
    (throughout_of_along (fun _ _ _ hi hok hs => step_looked hi hok hs) (.inr ⟨hw, [], rfl⟩) hok).last h
  exact hlooked.imp_right fun hl => ⟨hl.1.not_idle, hl.1⟩

instance (ev : Event) : Decidable (Undisturbed (.event ev) c a) :=
  inferInstanceAs (Decidable (c.loop.quitting = false ∧ c.loop.watches[ev.handle]?.isSome = true))

/-- A handle becomes readable, and a function is deferred while the loop thread is in
`::poll`. -/
def readableRun : List Label :=
  [.call 1 (.watch 5 .read), .exec 1 0, .exec 1 0, .exec 1 0, .loop 0, .loop 0, .call 2 .defer, .exec 2 0, .exec 2 0,
    .poll (.returned [POLLIN, POLLIN])]

/-- The rest of the cycle, in which the deferred function defers another one. -/
def servingRun : List Label :=
  [.loop 0, .loop 0, .loop 0, .call 0 .defer, .exec 0 0, .exec 0 0, .ret, .loop 0, .loop 0, .loop 0, .loop 0, .loop 0,
    .ret, .loop 0]

theorem servingRun_serves :
    ∃ c d, run step (start 3) readableRun = some c ∧ run step c servingRun = some d ∧ d.phase = .idle ∧
      d.loop.deferred = [2] ∧ Served (.event { handle := 5, what := toReady POLLIN }) c.log d ∧
      Served (.deferred 1) c.log d := by
  refine ⟨_, _, rfl, rfl, rfl, rfl, ?_, ?_⟩
  · exact (cycle_serves List.mem_cons_self (by decide) (rfl : run step _ servingRun = _)).resolve_right fun hd => hd.1 rfl
  · exact (cycle_serves List.mem_cons_self (Along.trivial _ _) (rfl : run step _ servingRun = _)).resolve_right fun hd => hd.1 rfl

/-! ### The cycle ends -/

/-- How many steps the loop thread takes at most until the cycle ends, if nothing more is
queued before the timers are looked at: two for each function, three for each event. -/
def agenda (c : Cycle) : Nat :=
  c.busy.toNat +
    match c.phase with
    | .idle | .waiting _ | .polling _ _ => 0
    | .polled pfds => 2 * (c.loop.deferred.length + c.loop.timers.length) + 3 * (translate pfds).length + 6
    | .swapping => 2 * (c.loop.deferred.length + c.loop.timers.length) + 3 * c.loop.ready.length + 5
    | .deferred fns => 2 * (fns.length + c.loop.timers.length) + 3 * c.loop.ready.length + 4
    | .timers => 2 * c.loop.timers.length + 3 * c.loop.ready.length + 3
    | .due fns => 2 * fns.length + 3 * c.loop.ready.length + 2
    | .dispatch evs => 3 * evs.length + 1
    | .calling _ _ rest => 3 * rest.length + 3

theorem agenda_pos (hp : c.phase.Serving) : 0 < c.agenda := by
  rw [agenda]
  split <;> first | omega | simp_all [Phase.Serving]

theorem advance_agenda {now : Int} (hp : c.phase.Serving) (hb : c.busy = false) (h : Advance c now d)
    (hd : d.phase ≠ .idle) : d.phase.Serving ∧ (c.phase.Taken → d.phase.Taken) ∧ d.agenda + 1 ≤ c.agenda := by
  cases h with
  | stay hp' _ => exact absurd hp' hd
  | dispatchDone _ | leave _ _ => exact absurd rfl hd
  | begin hp' _ | snapshot hp' => rw [hp'] at hp; exact hp.elim
  | fire hp' =>
      have := length_takeDue c.loop now
      refine ⟨trivial, fun _ => trivial, ?_⟩
      simp only [agenda, hp', hb, Bool.toNat_false]
      simp only [EventLoop.takeDue] at this ⊢
      omega
  | collect hp' | swap hp' | deferredDone hp' | runDeferred hp' | timersDone hp' | runTimer hp' | skip hp' _ _
    | find hp' _ _ | invoke hp' =>
      refine ⟨trivial, ?_, ?_⟩
      · rw [hp']
        exact id
      · simp only [agenda, hp', hb, enter, EventLoop.swapDeferred, EventLoop.collect, Bool.toNat_false, Bool.toNat_true,
          List.length_cons, List.length_nil]
        omega

/-- The step queues a function in time for this cycle: before the timers are looked at. -/
def prolongs (c : Cycle) (a : Label) : Bool :=
  match c.phase with
  | .polled _ | .swapping | .deferred _ | .timers => c.queues a
  | _ => false

theorem prolongs_of_taken (ht : c.phase.Taken) (a : Label) : c.prolongs a = false := by
  rw [prolongs]
  cases hp : c.phase with
  | idle | waiting | polling | due | dispatch | calling => rfl
  | polled | swapping | deferred | timers => rw [hp] at ht; exact ht.elim

theorem exec_agenda {t : Nat} {s : Section} (now : Int) (hs : c.inside t = some s) :
    (c.exec t now s).agenda ≤ c.agenda + 2 * (c.prolongs (.exec t now)).toNat := by
  obtain ⟨-, -, hdeferred, hlen⟩ := Section.effect_frame now c.loop s
  have hready := congrArg List.length (s.effect_ready now c.loop)
  simp only [agenda, exec, prolongs, queues, hs, Option.any_some]
  cases c.phase <;> simp only [Bool.toNat_false] <;> omega

/-- What is queued by the functions of a cycle prolongs it only before it takes the timers,
by two steps each. -/
theorem step_agenda (hp : c.phase.Serving) (h : c.step a = some d) (hd : d.phase ≠ .idle) :
    d.phase.Serving ∧ (c.phase.Taken → d.phase.Taken) ∧
      d.agenda + (counted a).toNat ≤ c.agenda + 2 * (c.prolongs a).toNat := by
  rcases step_spec h with ⟨now, rfl, hb, hadv⟩ | ⟨ms, pfds, outcome, rfl, hp', -⟩ | ⟨rfl, hb, -, rfl⟩ |
    ⟨t, r, rfl, -, -, rfl⟩ | ⟨t, now, s, rfl, hs, rfl⟩ | ⟨q, rfl, rfl⟩
  · obtain ⟨hserving, htaken, hle⟩ := advance_agenda hp hb hadv hd
    exact ⟨hserving, htaken, Nat.le_add_right_of_le hle⟩
  · rw [hp'] at hp
    exact hp.elim
  · refine ⟨hp, id, Nat.le_add_right_of_le ?_⟩
    simp only [agenda, hb, counted, Bool.toNat_false, Bool.toNat_true]
    omega
  · exact ⟨hp, id, Nat.le_add_right _ _⟩
  · exact ⟨hp, id, exec_agenda now hs⟩
  · exact ⟨hp, id, Nat.le_add_right _ _⟩

def Stays (c : Cycle) (a : Label) : Prop := ∀ d, c.step a = some d → d.phase ≠ .idle

theorem along_stays {as : List Label} (hin : Throughout step (fun c => c.phase ≠ .idle) c as)
    (h : run step c as = some d) : Along step Stays c as := by
  refine along_of_throughout (fun c a d hends hd hne => hends fun e he => ?_) hin h
  rwa [← Option.some.inj (hd.symm.trans he)]

theorem run_agenda {as : List Label} (hp : c.phase.Serving) (hok : Along step Stays c as) (h : run step c as = some d) :
    d.phase.Serving ∧ d.agenda + as.countP counted ≤ c.agenda + 2 * tally step prolongs c as := by
  refine run_potential (I := fun c => c.phase.Serving) ?_ hp hok h
  intro c a d hi hstays hd
  obtain ⟨hserving, -, hle⟩ := step_agenda hi hd (hstays d hd)
  exact ⟨hserving, hle⟩

theorem run_taken {as : List Label} (hp : c.phase.Serving) (ht : c.phase.Taken) (hok : Along step Stays c as)
    (h : run step c as = some d) : tally step prolongs c as = 0 := by
  induction as generalizing c with
  | nil => rfl
  | cons a as ih =>
      obtain ⟨e, he, hrest⟩ := run_cons.mp h
      obtain ⟨hserving, htaken, -⟩ := step_agenda hp he (hok.1 e he)
      rw [tally_cons he, prolongs_of_taken ht, ih hserving (htaken ht) (hok.2 e he) hrest]
      rfl

/-- A cycle ends. The loop thread can always go on in it, and takes a bounded number of steps
outside the functions that it runs: each function queued before the timers are looked at
adds two, and from then on nothing that is deferred, set or watched adds any. -/
theorem cycle_ends {as : List Label} (hp : c.phase.Serving) (h : run step c as = some d)
    (hin : Throughout step (fun c => c.phase ≠ .idle) c as) :
    as.countP counted < c.agenda + 2 * tally step prolongs c as ∧ (c.phase.Taken → as.countP counted < c.agenda) ∧
      ∃ a, (counted a = true ∨ ∃ now, a = .exec loopThread now) ∧ (d.step a).isSome := by
  have hok := along_stays hin h
  obtain ⟨hserving, hle⟩ := run_agenda hp hok h
  have hpos := agenda_pos hserving
  refine ⟨by omega, fun ht => ?_, Reactor.cycle_moves d⟩
  have hnone := run_taken hp ht hok h
  omega

/-- The event of the same cycle is dispatched while its callback and another thread defer. -/
def deferringCallback : List Label :=
  [.loop 0, .loop 0, .call 0 .defer, .exec 0 0, .call 2 .defer, .exec 2 0, .exec 0 0, .ret]

theorem deferringCallback_ends :
    ∃ b c d, run step (start 3) readableRun = some b ∧ run step b (servingRun.take 10) = some c ∧
      c.phase = .dispatch [{ handle := 5, what := toReady POLLIN }] ∧ run step c deferringCallback = some d ∧
      c.agenda = 4 ∧ deferringCallback.countP counted < c.agenda := by
  refine ⟨_, _, _, rfl, rfl, rfl, rfl, rfl, ?_⟩
  exact (cycle_ends (by exact trivial) (by exact rfl) (by decide)).2.1 (by exact trivial)

end Cycle
end CxNetworking.Core
