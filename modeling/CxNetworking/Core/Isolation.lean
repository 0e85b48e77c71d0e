import CxNetworking.Core.Dispatch
import Mathlib.Data.List.Pairwise

/-! Which registration a dispatched event reaches. Dispatch looks the callback up by
descriptor number, so an event that is still waiting to be dispatched goes to whatever
is registered under its number by then. -/
namespace CxNetworking.Core
open Execution

def registered : List Note → Handle → Option Nat
  | [], _ => none
  | .watched k cb :: earlier, h => if k = h then some cb else registered earlier h
  | .unwatched k :: earlier, h => if k = h then none else registered earlier h
  | _ :: earlier, h => registered earlier h

/-- Callback isolation as a property of the history, with callbacks named by their
registration. -/
structure Isolated (log : List Note) : Prop where
  /-- A callback is passed what the cycle's `::poll` reported for its own registration. -/
  reported : ∀ later cb ev earlier, log = later ++ .invoked cb ev :: earlier →
    ∃ p, lastPoll earlier = some p ∧ p.Reports ev ∧ registered p.before ev.handle = some cb
  /-- A `::poll` lies between a registration and the calls of its callback. -/
  added : ∀ later cb ev between h earlier,
    log = later ++ .invoked cb ev :: (between ++ .watched h cb :: earlier) →
      ∃ pfds outcome, .polled pfds outcome ∈ between
  /-- A registration that was removed is not called. -/
  removed : ∀ later cb ev between h earlier,
    log = later ++ .invoked cb ev :: (between ++ .unwatched h :: earlier) → registered earlier h ≠ some cb

/-- The inductive form: each call goes to the registration that holds the handle, and
that held it when the cycle's `::poll` reported the event. -/
def CallsIsolated : List Note → Prop
  | [] => True
  | .invoked cb ev :: earlier =>
    (registered earlier ev.handle = some cb ∧
      ∃ p, lastPoll earlier = some p ∧ p.Reports ev ∧ registered p.before ev.handle = some cb) ∧
    CallsIsolated earlier
  | _ :: earlier => CallsIsolated earlier

/-- Two notes of a history do not register the same callback. -/
def Note.Apart (a b : Note) : Prop := ∀ h k cb, a = .watched h cb → b ≠ .watched k cb

instance : Std.Symm Note.Apart where
  symm _ _ hab h k cb hb ha := hab k h cb ha hb

theorem mem_of_registered {log : List Note} {h : Handle} {cb : Nat} (hr : registered log h = some cb) :
    .watched h cb ∈ log := by
  induction log with
  | nil => cases hr
  | cons n earlier ih =>
      cases n with
      | watched k cb' =>
          simp only [registered] at hr
          split at hr
          · next hk =>
              cases hr
              simp [hk]
          · exact List.mem_cons_of_mem _ (ih hr)
      | unwatched k =>
          simp only [registered, Option.ite_none_left_eq_some] at hr
          exact List.mem_cons_of_mem _ (ih hr.2)
      | polled | ranDeferred | ranTimer | invoked => exact List.mem_cons_of_mem _ (ih hr)

theorem registered_past_unwatched {between earlier : List Note} {h k : Handle} {cb : Nat}
    (hr : registered (between ++ .unwatched h :: earlier) k = some cb) :
    .watched k cb ∈ between ∨ k ≠ h ∧ registered earlier k = some cb := by
  induction between with
  | nil =>
      simp only [List.nil_append, registered, Option.ite_none_left_eq_some] at hr
      exact .inr ⟨Ne.symm hr.1, hr.2⟩
  | cons n between ih =>
      cases n with
      | watched j cb' =>
          simp only [List.cons_append, registered] at hr
          split at hr
          · next hj =>
              cases hr
              simp [hj]
          · exact (ih hr).imp_left (List.mem_cons_of_mem _)
      | unwatched j =>
          simp only [List.cons_append, registered, Option.ite_none_left_eq_some] at hr
          exact (ih hr.2).imp_left (List.mem_cons_of_mem _)
      | polled | ranDeferred | ranTimer | invoked => exact (ih hr).imp_left (List.mem_cons_of_mem _)

theorem before_subset {log : List Note} {p : LastPoll} (hp : lastPoll log = some p) : p.before ⊆ log := by
  induction log with
  | nil => cases hp
  | cons n earlier ih =>
      cases n with
      | polled pfds outcome =>
          cases hp
          exact List.subset_cons_self _ _
      | watched | unwatched | ranDeferred | ranTimer | invoked =>
          exact List.Subset.trans (ih hp) (List.subset_cons_self _ _)

theorem lastPoll_append {between earlier : List Note}
    (h : ∀ pfds outcome, .polled pfds outcome ∉ between) :
    lastPoll (between ++ earlier) = lastPoll earlier := by
  induction between with
  | nil => rfl
  | cons n between ih =>
      have hrest := ih fun pfds outcome hmem => h pfds outcome (List.mem_cons_of_mem _ hmem)
      cases n with
      | polled pfds outcome => exact (h pfds outcome List.mem_cons_self).elim
      | watched | unwatched | ranDeferred | ranTimer | invoked => exact hrest

theorem CallsIsolated.at_call {later earlier : List Note} {cb : Nat} {ev : Event}
    (h : CallsIsolated (later ++ .invoked cb ev :: earlier)) :
    registered earlier ev.handle = some cb ∧
      ∃ p, lastPoll earlier = some p ∧ p.Reports ev ∧ registered p.before ev.handle = some cb := by
  induction later with
  | nil => exact h.1
  | cons n later ih =>
      cases n with
      | invoked => exact ih h.2
      | watched | unwatched | polled | ranDeferred | ranTimer => exact ih h

/-- As no callback is registered twice, the inductive form says all of `Isolated`. -/
theorem CallsIsolated.isolated {log : List Note} (h : CallsIsolated log) (hapart : log.Pairwise Note.Apart) :
    Isolated log where
  reported := by
    rintro later cb ev earlier rfl
    exact h.at_call.2
  added := by
    rintro later cb ev between k earlier rfl
    by_contra hnone
    push Not at hnone
    obtain ⟨-, p, hp, -, hreg⟩ := h.at_call
    rw [lastPoll_append hnone, lastPoll_plain (by trivial)] at hp
    have hmem : .watched ev.handle cb ∈ earlier := before_subset hp (mem_of_registered hreg)
    rw [← List.cons_append, ← List.append_assoc, List.pairwise_append] at hapart
    exact (List.pairwise_cons.mp hapart.2.1).1 _ hmem _ _ _ rfl rfl
  removed := by
    rintro later cb ev between k earlier rfl hold
    have hsuffix := (List.pairwise_cons.mp (List.pairwise_append.mp hapart).2.1).2
    have hold := mem_of_registered hold
    rcases registered_past_unwatched h.at_call.1 with hnew | ⟨hne, hnew⟩
    · exact (List.pairwise_append.mp hsuffix).2.2 _ hnew _ (List.mem_cons_of_mem _ hold) _ _ _ rfl rfl
    · have hpair := (List.pairwise_cons.mp (List.pairwise_append.mp hsuffix).2.1).2
      exact hpair.forall (mem_of_registered hnew) hold (by simp [hne]) _ _ _ rfl rfl

/-! Each callback belongs to one call of `watch`. -/

def Note.Neutral : Note → Prop
  | .watched _ _ | .unwatched _ => False
  | _ => True

theorem registered_neutral {n : Note} (h : n.Neutral) (log : List Note) :
    registered (n :: log) = registered log := by
  cases n with
  | watched | unwatched => exact h.elim
  | polled | ranDeferred | ranTimer | invoked => rfl

/-- The log is the same, or has one more note that registers and removes nothing. -/
def Quiet (c d : Cycle) : Prop := d.log = c.log ∨ ∃ n, n.Neutral ∧ d.log = n :: c.log

theorem Quiet.of_cons {c d : Cycle} {n : Note} (h : d.log = n :: c.log) (hn : n.Neutral) : Quiet c d :=
  .inr ⟨n, hn, h⟩

theorem Quiet.registered {c d : Cycle} (h : Quiet c d) : registered d.log = registered c.log := by
  rcases h with h | ⟨n, hn, h⟩
  · rw [h]
  · rw [h, registered_neutral hn]

theorem Quiet.mem_watched {c d : Cycle} (h : Quiet c d) (k : Handle) (cb : Nat) :
    .watched k cb ∈ d.log ↔ .watched k cb ∈ c.log := by
  rcases h with h | ⟨n, hn, h⟩
  · rw [h]
  · rw [h, List.mem_cons, or_iff_right]
    rintro rfl
    exact hn

theorem Quiet.apart {c d : Cycle} (h : Quiet c d) (hc : c.log.Pairwise Note.Apart) :
    d.log.Pairwise Note.Apart := by
  rcases h with h | ⟨n, hn, h⟩
  · rwa [h]
  · rw [h, List.pairwise_cons]
    refine ⟨?_, hc⟩
    rintro m - _ _ _ rfl
    exact hn.elim

theorem advance_quiet {c d : Cycle} {now : Int} (hd : Cycle.Advance c now d) :
    Quiet c d ∧ d.inside = c.inside ∧ d.calls = c.calls ∧ d.loop.watches = c.loop.watches := by
  cases hd with
  | runDeferred | runTimer | invoke => exact ⟨.of_cons rfl trivial, rfl, rfl, rfl⟩
  | stay | begin | snapshot | collect | swap | deferredDone | fire | timersDone | dispatchDone | leave | skip
    | find => exact ⟨.inl rfl, rfl, rfl, rfl⟩

theorem answer_quiet {c d : Cycle} {pfds : List PollFd} {outcome : PollOutcome}
    (hd : Cycle.Answer c pfds outcome d) :
    Quiet c d ∧ d.inside = c.inside ∧ d.calls = c.calls ∧ d.loop = c.loop := by
  cases hd <;> exact ⟨.of_cons rfl trivial, rfl, rfl, rfl⟩

structure Named (c : Cycle) : Prop where
  apart : c.log.Pairwise Note.Apart
  used : ∀ h cb, .watched h cb ∈ c.log → cb < c.calls
  unused : ∀ t h events cb, c.inside t = some (.setWatch h events cb) →
    cb < c.calls ∧ ∀ k, .watched k cb ∉ c.log
  distinct : ∀ t u h k events events' cb, c.inside t = some (.setWatch h events cb) →
    c.inside u = some (.setWatch k events' cb) → t = u

theorem start_named (wakeFd : Handle) : Named (Cycle.start wakeFd) where
  apart := .nil
  used := by simp [Cycle.start]
  unused := by simp [Cycle.start]
  distinct := by simp [Cycle.start]

theorem Named.quiet {c d : Cycle} (h : Named c) (hquiet : Quiet c d) (hinside : d.inside = c.inside)
    (hcalls : d.calls = c.calls) : Named d := by
  refine ⟨hquiet.apart h.apart, ?_, ?_, ?_⟩
  · simpa only [hquiet.mem_watched, hcalls] using h.used
  · simpa only [hquiet.mem_watched, hcalls, hinside] using h.unused
  · simpa only [hinside] using h.distinct

theorem call_named {c : Cycle} (h : Named c) (t : Nat) (s : Section)
    (hs : ∀ k events cb, s = .setWatch k events cb → cb = c.calls) :
    Named { c with inside := Function.update c.inside t (some s), calls := c.calls + 1 } := by
  have hused : ∀ k, .watched k c.calls ∉ c.log := fun k hk => Nat.lt_irrefl _ (h.used k _ hk)
  refine ⟨h.apart, fun k cb hk => Nat.lt_succ_of_lt (h.used k cb hk), ?_, ?_⟩
  · intro u k events cb hu
    simp only [Function.update_apply] at hu
    split at hu
    · rw [hs k events cb (Option.some.inj hu)]
      exact ⟨Nat.lt_succ_self _, hused⟩
    · exact (h.unused u k events cb hu).imp_left Nat.lt_succ_of_lt
  · intro u v j k events events' cb hu hv
    simp only [Function.update_apply] at hu hv
    split at hu <;> split at hv
    · simp_all
    · rw [hs _ _ _ (Option.some.inj hu)] at hv
      exact absurd (h.unused v k events' _ hv).1 (Nat.lt_irrefl _)
    · rw [hs _ _ _ (Option.some.inj hv)] at hu
      exact absurd (h.unused u j events _ hu).1 (Nat.lt_irrefl _)
    · exact h.distinct u v j k events events' cb hu hv

theorem Request.enter_cb {n : Nat} {r : Request} {h : Handle} {events : Interest} {cb : Nat}
    (hr : r.enter n = .setWatch h events cb) : cb = n := by
  cases r <;> cases hr
  rfl

theorem exec_named {c : Cycle} (h : Named c) {t : Nat} (now : Int) {s : Section} (hs : c.inside t = some s) :
    Named (c.exec t now s) := by
  have hinside : ∀ u k events cb, (c.exec t now s).inside u = some (.setWatch k events cb) →
      u ≠ t ∧ c.inside u = some (.setWatch k events cb) := by
    intro u k events cb hu
    rcases Cycle.inside_exec_cases hu with hlater | hu
    · cases hlater
    · exact hu
  have hnotes : ∀ k cb, .watched k cb ∈ s.notes → ∃ events, s = .setWatch k events cb := by
    intro k cb hk
    cases s <;> simp_all [Section.notes]
  refine ⟨?_, ?_, ?_, ?_⟩
  · refine List.pairwise_append.mpr ⟨?_, h.apart, ?_⟩
    · cases s <;> simp [Section.notes]
    · rintro n hn m hm k j cb rfl rfl
      obtain ⟨events, rfl⟩ := hnotes k cb hn
      exact (h.unused t k events cb hs).2 j hm
  · intro k cb hk
    rcases List.mem_append.mp hk with hk | hk
    · obtain ⟨events, rfl⟩ := hnotes k cb hk
      exact (h.unused t k events cb hs).1
    · exact h.used k cb hk
  · intro u k events cb hu
    obtain ⟨hut, hcu⟩ := hinside u k events cb hu
    refine ⟨(h.unused u k events cb hcu).1, fun j hj => ?_⟩
    rcases List.mem_append.mp hj with hj | hj
    · obtain ⟨events', rfl⟩ := hnotes j cb hj
      exact hut (h.distinct u t k j events events' cb hcu hs)
    · exact (h.unused u k events cb hcu).2 j hj
  · intro u v j k events events' cb hu hv
    exact h.distinct u v j k events events' cb (hinside u j events cb hu).2 (hinside v k events' cb hv).2

theorem step_named {c d : Cycle} {a : Label} (h : Named c) (hd : c.step a = some d) : Named d := by
  rcases Cycle.step_spec hd with ⟨now, -, -, hd⟩ | ⟨ms, pfds, outcome, -, -, hd⟩ | ⟨-, -, -, rfl⟩ |
    ⟨t, r, -, -, -, rfl⟩ | ⟨t, now, s, -, hs, rfl⟩ | ⟨q, -, rfl⟩
  · obtain ⟨hquiet, hinside, hcalls, -⟩ := advance_quiet hd
    exact h.quiet hquiet hinside hcalls
  · obtain ⟨hquiet, hinside, hcalls, -⟩ := answer_quiet hd
    exact h.quiet hquiet hinside hcalls
  · exact h.quiet (.inl rfl) rfl rfl
  · exact call_named h t _ fun _ _ _ => Request.enter_cb
  · exact exec_named h now hs
  · exact h.quiet (.inl rfl) rfl rfl

/-! Whom the events in flight reach. -/

/-- A section that changes which callback a handle has. -/
def Section.Registers : Section → Prop
  | .setWatch _ _ _ | .eraseWatch _ => True
  | _ => False

instance (s : Section) : Decidable s.Registers :=
  match s with
  | .setWatch _ _ _ | .eraseWatch _ => isTrue trivial
  | .setFd _ _ | .setInterest _ _ | .updateFd _ _ | .dropFd _ | .pushDeferred _ | .pushTimer _ _ | .clearTimeout _
    | .interrupt => isFalse id

def Section.adds : Section → Option Handle
  | .setWatch h _ _ => some h
  | _ => none

/-- The steps considered. Registrations are added and removed by functions that run on
the loop thread, no `::poll` is interrupted over a stale list, and no handle is
registered while an event for it waits to be dispatched. -/
def KeepsIsolation (c : Cycle) : Label → Prop
  | .call t r => (r.enter c.calls).Registers → t = loopThread
  | .poll outcome => NoStaleList c (.poll outcome)
  | .exec t _ => ∀ ev ∈ c.inFlight, (c.inside t).bind Section.adds ≠ some ev.handle
  | .loop _ | .ret | .quit _ => True

instance (c : Cycle) (a : Label) : Decidable (KeepsIsolation c a) :=
  match a with
  | .call _ _ => inferInstanceAs (Decidable (_ → _))
  | .poll outcome => inferInstanceAs (Decidable (NoStaleList c (.poll outcome)))
  | .exec _ _ => inferInstanceAs (Decidable (∀ ev ∈ c.inFlight, _))
  | .loop _ | .ret | .quit _ => isTrue trivial

theorem KeepsIsolation.noStaleList {c : Cycle} {a : Label} (h : KeepsIsolation c a) : NoStaleList c a := by
  cases a with
  | poll => exact h
  | loop | ret | call | exec | quit => exact fun ha => nomatch ha

/-- The functions the loop runs make the registrations, and none of them is running
while the loop holds a callback it has looked up. -/
structure OnLoop (c : Cycle) : Prop where
  registers : ∀ t s, c.inside t = some s → s.Registers → t = loopThread
  inside : c.inside loopThread ≠ none → c.busy = true
  busy : c.busy = true → ∀ cb ev rest, c.phase ≠ .calling cb ev rest

/-- The registration of an event in flight is the one that was polled, or none. -/
structure Settled (c : Cycle) : Prop where
  table : ∀ h, c.loop.callback h = registered c.log h
  calls : CallsIsolated c.log
  kept : ∀ ev ∈ c.inFlight, ∀ p, lastPoll c.log = some p → ∀ cb,
    registered c.log ev.handle = some cb → registered p.before ev.handle = some cb
  found : ∀ cb ev rest, c.phase = .calling cb ev rest → registered c.log ev.handle = some cb

theorem start_onLoop (wakeFd : Handle) : OnLoop (Cycle.start wakeFd) where
  registers := by simp [Cycle.start]
  inside := by simp [Cycle.start]
  busy := by simp [Cycle.start]

theorem start_settled (wakeFd : Handle) : Settled (Cycle.start wakeFd) where
  table := by simp [Cycle.start, registered, EventLoop.callback]
  calls := trivial
  kept := fun _ h => nomatch h
  found := fun _ _ _ h => nomatch h

theorem Section.Later.not_registers {s : Section} (h : s.Later) : ¬ s.Registers := by
  cases h <;> exact id

theorem advance_onLoop {c d : Cycle} {now : Int} (h : OnLoop c) (hb : c.busy = false)
    (hd : Cycle.Advance c now d) : OnLoop d := by
  obtain ⟨-, hinside, -, -⟩ := advance_quiet hd
  have hnone : c.inside loopThread = none := by
    by_contra hne
    simp [h.inside hne] at hb
  refine ⟨by simpa only [hinside] using h.registers, by simp [hinside, hnone], ?_⟩
  cases hd with
  | runDeferred | runTimer | invoke => simp [Cycle.enter]
  | stay | begin | snapshot | collect | swap | deferredDone | fire | timersDone | dispatchDone | leave | skip
    | find => simp [hb]

theorem step_onLoop {c d : Cycle} {a : Label} (h : OnLoop c) (hok : KeepsIsolation c a)
    (hd : c.step a = some d) : OnLoop d := by
  rcases Cycle.step_spec hd with ⟨now, -, hb, hd⟩ | ⟨ms, pfds, outcome, -, hp, hd⟩ | ⟨-, -, hnone, rfl⟩ |
    ⟨t, r, rfl, -, hbusy, rfl⟩ | ⟨t, now, s, -, hs, rfl⟩ | ⟨q, -, rfl⟩
  · exact advance_onLoop h hb hd
  · cases hd <;> exact ⟨h.registers, h.inside, by simp⟩
  · exact ⟨h.registers, by simp [hnone], by simp⟩
  · refine ⟨?_, ?_, h.busy⟩
    · intro u s hu hreg
      simp only [Function.update_apply] at hu
      split at hu
      · cases hu
        exact ‹u = t› ▸ hok hreg
      · exact h.registers u s hu hreg
    · by_cases ht : t = loopThread
      · exact fun _ => hbusy ht
      · simpa only [Function.update_of_ne (Ne.symm ht)] using h.inside
  · refine ⟨?_, ?_, h.busy⟩
    · intro u s' hu hreg
      rcases Cycle.inside_exec_cases hu with hlater | ⟨-, hu⟩
      · exact absurd hreg hlater.not_registers
      · exact h.registers u s' hu hreg
    · intro hne
      by_cases ht : t = loopThread
      · exact h.inside (by simp [← ht, hs])
      · refine h.inside ?_
        simpa only [Cycle.exec, Function.update_of_ne (Ne.symm ht)] using hne
  · exact ⟨h.registers, h.inside, h.busy⟩

/-- A step keeps the invariant if the history gives the same registrations and the same
latest `::poll`, and no event comes into flight. -/
theorem Settled.keep {c d : Cycle} (h : Settled c) (hreg : registered d.log = registered c.log)
    (hlast : lastPoll d.log = lastPoll c.log) (hcalls : CallsIsolated d.log)
    (htable : ∀ k, d.loop.callback k = c.loop.callback k)
    (hflight : ∀ ev ∈ d.inFlight, ev ∈ c.inFlight)
    (hfound : ∀ cb ev rest, d.phase = .calling cb ev rest → registered c.log ev.handle = some cb) :
    Settled d where
  table := by simpa only [htable, hreg] using h.table
  calls := hcalls
  kept := by simpa only [hreg, hlast] using fun ev hev => h.kept ev (hflight ev hev)
  found := by simpa only [hreg] using hfound

theorem advance_settled {c d : Cycle} {now : Int} (h : Settled c) (hcur : Current c)
    (hd : Cycle.Advance c now d) : Settled d := by
  cases hd with
  | stay | begin | snapshot | swap | deferredDone | fire | timersDone | dispatchDone | leave | skip =>
      refine h.keep rfl rfl h.calls (fun _ => rfl) ?_ ?_ <;>
        simp_all [Cycle.inFlight, EventLoop.swapDeferred, EventLoop.takeDue]
  | collect hp =>
      refine h.keep rfl rfl h.calls (fun _ => rfl) ?_ (by rintro _ _ _ ⟨⟩)
      simp [Cycle.inFlight, EventLoop.collect, hp]
  | runDeferred hp | runTimer hp =>
      refine h.keep rfl rfl h.calls (fun _ => rfl) ?_ (by rintro _ _ _ ⟨⟩)
      simp [Cycle.inFlight, Cycle.enter, hp]
  | find hp hq hw =>
      refine h.keep rfl rfl h.calls (fun _ => rfl) ?_ ?_
      · simp [Cycle.inFlight, hp]
      · rintro cb ev rest ⟨⟩
        rw [← h.table, EventLoop.callback, hw]
        rfl
  | @invoke cb ev rest hp =>
      have hflight : c.inFlight = ev :: rest := by rw [Cycle.inFlight, hp]
      have hmem : ev ∈ c.inFlight := by simp [hflight]
      have hreg := h.found cb ev rest hp
      obtain ⟨p, hlast, hrep⟩ := hcur.reported ev hmem
      refine h.keep rfl rfl ?_ (fun _ => rfl) ?_ (by rintro _ _ _ ⟨⟩)
      · exact ⟨⟨hreg, p, hlast, hrep, h.kept ev hmem p hlast cb hreg⟩, h.calls⟩
      · intro ev' hev
        exact hflight ▸ List.mem_cons_of_mem ev hev

theorem answer_settled {c d : Cycle} {pfds : List PollFd} {outcome : PollOutcome} (h : Settled c)
    (hok : NoStaleList c (.poll outcome)) (hd : Cycle.Answer c pfds outcome d) : Settled d := by
  cases hd with
  | interrupted =>
      have hready : c.loop.ready = [] := hok rfl
      refine ⟨h.table, h.calls, ?_, by rintro _ _ _ ⟨⟩⟩
      simp [Cycle.inFlight, hready]
  | failed => exact ⟨h.table, h.calls, by rintro _ ⟨⟩, by rintro _ _ _ ⟨⟩⟩
  | returned hlen =>
      refine ⟨h.table, h.calls, ?_, by rintro _ _ _ ⟨⟩⟩
      rintro ev - p ⟨⟩ cb hcb
      exact hcb

theorem Section.effect_callback {s : Section} (hs : ¬ s.Registers) (now : Int) (l : EventLoop Nat Nat) (k : Handle) :
    (s.effect now l).callback k = l.callback k := by
  cases s with
  | setWatch | eraseWatch => exact (hs trivial).elim
  | setInterest h events =>
      simp only [Section.effect]
      cases hl : l.setInterest h events with
      | none => rfl
      | some l' => exact EventLoop.callback_setInterest hl k
  | setFd | updateFd | dropFd | pushDeferred | pushTimer | clearTimeout | interrupt => rfl

theorem exec_inFlight (c : Cycle) (t : Nat) (now : Int) (s : Section) :
    (c.exec t now s).inFlight = c.inFlight := by
  simp only [Cycle.inFlight, Cycle.exec, s.effect_ready]

theorem exec_settled {c : Cycle} (h : Settled c) {t : Nat} (now : Int) {s : Section}
    (hcalling : s.Registers → ∀ cb ev rest, c.phase ≠ .calling cb ev rest)
    (hnew : ∀ ev ∈ c.inFlight, s.adds ≠ some ev.handle) :
    Settled (c.exec t now s) := by
  cases s with
  | setWatch k events cb =>
      refine ⟨?_, h.calls, ?_, fun cb' ev rest hp => (hcalling trivial cb' ev rest hp).elim⟩
      · intro j
        simp only [Cycle.exec, Section.effect, Section.notes, List.singleton_append, registered,
          EventLoop.callback_setWatch, h.table]
      · rw [exec_inFlight]
        intro ev hev p hp cb' hcb
        refine h.kept ev hev p hp cb' ?_
        have hne : k ≠ ev.handle := fun hk => hnew ev hev (congrArg some hk)
        simpa only [Cycle.exec, Section.notes, List.singleton_append, registered, if_neg hne] using hcb
  | eraseWatch k =>
      refine ⟨?_, h.calls, ?_, fun cb' ev rest hp => (hcalling trivial cb' ev rest hp).elim⟩
      · intro j
        simp only [Cycle.exec, Section.effect, Section.notes, List.singleton_append, registered,
          EventLoop.callback_eraseWatch, h.table]
      · rw [exec_inFlight]
        intro ev hev p hp cb' hcb
        refine h.kept ev hev p hp cb' ?_
        simp only [Cycle.exec, Section.notes, List.singleton_append, registered, Option.ite_none_left_eq_some] at hcb
        exact hcb.2
  | setFd | setInterest | updateFd | dropFd | pushDeferred | pushTimer | clearTimeout | interrupt =>
      refine h.keep rfl rfl h.calls (fun k => Section.effect_callback id now c.loop k) ?_ h.found
      rw [exec_inFlight]
      exact fun _ hev => hev

theorem step_settled {c d : Cycle} {a : Label} (h : Settled c) (hcur : Current c) (hon : OnLoop c)
    (hok : KeepsIsolation c a) (hd : c.step a = some d) : Settled d := by
  rcases Cycle.step_spec hd with ⟨now, -, -, hd⟩ | ⟨ms, pfds, outcome, rfl, -, hd⟩ | ⟨-, -, -, rfl⟩ |
    ⟨t, r, -, -, -, rfl⟩ | ⟨t, now, s, rfl, hs, rfl⟩ | ⟨q, -, rfl⟩
  · exact advance_settled h hcur hd
  · exact answer_settled h hok.noStaleList hd
  · exact ⟨h.table, h.calls, h.kept, h.found⟩
  · exact ⟨h.table, h.calls, h.kept, h.found⟩
  · refine exec_settled h now ?_ fun ev hev => by simpa only [hs, Option.bind_some] using hok ev hev
    intro hreg
    have ht := hon.registers t s hs hreg
    exact hon.busy (hon.inside (by simp [← ht, hs]))
  · exact ⟨h.table, h.calls, h.kept, h.found⟩

/-- In every run in which registrations are made on the loop thread, no `::poll` is
interrupted over a stale list and no handle is registered while an event for it is in
flight, every callback is passed exactly what the cycle's `::poll` reported for its own
registration, never in the cycle it was registered in and never after its removal. -/
theorem isolated_of_keepsIsolation (wakeFd : Handle) {as : List Label}
    (hok : Along Cycle.step KeepsIsolation (Cycle.start wakeFd) as) :
    Throughout Cycle.step (fun c => Isolated c.log) (Cycle.start wakeFd) as := by
  have hinv : Throughout Cycle.step (fun c => Named c ∧ Current c ∧ OnLoop c ∧ Settled c)
      (Cycle.start wakeFd) as := by
    refine throughout_of_along ?_
      ⟨start_named wakeFd, start_current wakeFd, start_onLoop wakeFd, start_settled wakeFd⟩ hok
    rintro c a d ⟨hn, hc, hl, hs⟩ hok hd
    exact ⟨step_named hn hd, step_current hc hok.noStaleList hd, step_onLoop hl hok hd,
      step_settled hs hc hl hok hd⟩
  exact hinv.mono fun c hc => hc.2.2.2.calls.isolated hc.1.apart

def loopCall (r : Request) (sections : Nat) : List Label :=
  .call loopThread r :: List.replicate sections (.exec loopThread 0)

/-- A deferred function watches the descriptors 5 and 6; the next `::poll` reports both,
and the callback of 5 is called. -/
def twoReady : List Label :=
  [.call 1 .defer, .exec 1 0, .exec 1 0, .loop 0, .loop 0, .poll (.returned [POLLIN]), .loop 0, .loop 0, .loop 0] ++
    loopCall (.watch 5 .read) 3 ++ loopCall (.watch 6 .read) 3 ++
    [.ret, .loop 0, .loop 0, .loop 0, .loop 0, .loop 0, .loop 0, .poll (.returned [POLLIN, POLLIN, POLLIN]),
      .loop 0] ++ dispatchOne

/-- The callback of 5 stops watching 6, which is then skipped. -/
def skipRun : List Label := twoReady ++ loopCall (.unwatch 6) 3 ++ [.ret, .loop 0, .loop 0]

theorem skipRun_isolated : (run Cycle.step (Cycle.start 3) skipRun).isSome ∧
    Throughout Cycle.step (fun c => Isolated c.log) (Cycle.start 3) skipRun :=
  ⟨by decide, isolated_of_keepsIsolation 3 (by decide)⟩

/-- The callback of 5 stops watching 6 and watches a new descriptor that got the same
number. -/
def recycleRun : List Label :=
  twoReady ++ loopCall (.unwatch 6) 3 ++ loopCall (.watch 6 .read) 3 ++ [.ret, .loop 0, .loop 0]

/-- The new callback is called in the same cycle, with readiness polled for the old one. -/
theorem recycleRun_not_isolated :
    ∃ c, run Cycle.step (Cycle.start 3) recycleRun = some c ∧ ¬ Isolated c.log ∧
      ∃ what, c.log.take 4 = [.invoked 4 ⟨6, what⟩, .watched 6 4, .unwatched 6, .invoked 1 ⟨5, what⟩] := by
  have hlog : (run Cycle.step (Cycle.start 3) recycleRun).map (·.log) =
      some [.invoked 4 ⟨6, { readable := true }⟩, .watched 6 4, .unwatched 6, .invoked 1 ⟨5, { readable := true }⟩,
        .polled [⟨3, 1, 0⟩, ⟨5, 1, 0⟩, ⟨6, 1, 0⟩] (.returned [1, 1, 1]), .watched 6 2, .watched 5 1,
        .ranDeferred 0, .polled [⟨3, 1, 0⟩] (.returned [1])] := by
    decide
  obtain ⟨c, hc, hlog⟩ := Option.map_eq_some_iff.mp hlog
  refine ⟨c, hc, fun hiso => ?_, { readable := true }, by rw [hlog]; rfl⟩
  obtain ⟨p, hp, -, hreg⟩ := hiso.reported [] _ _ _ hlog
  cases hp
  simp [registered] at hreg

end CxNetworking.Core
