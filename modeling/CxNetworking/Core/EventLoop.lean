import CxNetworking.Core.Poller
import Mathlib.Logic.Function.Basic

/-! `core::event_loop`: its members and the sections of its calls, each of them one
hold of the loop's mutex or of the poller's. Callbacks (`κ`) and deferred functions
(`φ`) are opaque values. Timer ids do not wrap around: 2^64 calls of `set_timeout` are
out of scope. -/
namespace CxNetworking.Core

structure WatchEntry (κ : Type*) where
  events : Interest
  cb : κ
  deriving DecidableEq, Repr

/-- A pending timer; `when` counts the nanoseconds of `steady_clock`. -/
structure Timer (φ : Type*) where
  id : Nat
  when : Int
  fn : φ
  deriving DecidableEq, Repr

structure EventLoop (κ φ : Type*) where
  poller : Poller
  ready : List Event := []
  watches : Std.ExtTreeMap Handle (WatchEntry κ) := ∅
  deferred : List φ := []
  timers : List (Timer φ) := []
  nextTimerId : Nat := 1
  quitting : Bool := false

/-- Two's complement arithmetic of the 64-bit counts behind `std::chrono`. -/
def wrap64 (x : Int) : Int := (x + 2 ^ 63) % 2 ^ 64 - 2 ^ 63

def nanosPerMilli : Int := 1000000

def deadline (now delay : Int) : Int := wrap64 (now + wrap64 (delay * nanosPerMilli))

namespace EventLoop

variable {κ φ : Type*}

/-! The sections under the loop's mutex. -/

def setWatch (l : EventLoop κ φ) (h : Handle) (events : Interest) (cb : κ) : EventLoop κ φ :=
  { l with watches := l.watches.insert h { events, cb } }

/-- `modify` returns early, without touching the poller, when `h` is not watched. -/
def setInterest (l : EventLoop κ φ) (h : Handle) (events : Interest) : Option (EventLoop κ φ) :=
  l.watches[h]?.map fun e => { l with watches := l.watches.insert h { e with events } }

def eraseWatch (l : EventLoop κ φ) (h : Handle) : EventLoop κ φ :=
  { l with watches := l.watches.erase h }

def callback (l : EventLoop κ φ) (h : Handle) : Option κ := l.watches[h]?.map (·.cb)

def pushDeferred (l : EventLoop κ φ) (fn : φ) : EventLoop κ φ :=
  { l with deferred := l.deferred ++ [fn] }

def pushTimer (l : EventLoop κ φ) (now delay : Int) (fn : φ) : EventLoop κ φ :=
  { l with
    nextTimerId := l.nextTimerId + 1
    timers := l.timers ++ [{ id := l.nextTimerId, when := deadline now delay, fn }] }

def clearTimeout (l : EventLoop κ φ) (id : Nat) : EventLoop κ φ :=
  { l with timers := l.timers.filter fun t => t.id != id }

/-- `next_timeout` in milliseconds: zero for queued work, none without timers, else
the time to the soonest deadline, cut off toward zero. -/
def nextTimeout (l : EventLoop κ φ) (now : Int) : Option Int :=
  if l.deferred ≠ [] then some 0
  else match l.timers with
    | [] => none
    | first :: _ =>
      let soonest := l.timers.foldl (fun m t => min m t.when) first.when
      let ms := (wrap64 (soonest - now)).tdiv nanosPerMilli
      some (if ms < 0 then 0 else ms)

def swapDeferred (l : EventLoop κ φ) : List φ × EventLoop κ φ :=
  (l.deferred, { l with deferred := [] })

/-- The locked part of `fire_due_timers`. -/
def takeDue (l : EventLoop κ φ) (now : Int) : List φ × EventLoop κ φ :=
  ((l.timers.filter fun t => t.when ≤ now).map (·.fn),
    { l with timers := l.timers.filter fun t => ¬ t.when ≤ now })

/-- What `poller::wait` does behind a successful `::poll`. -/
def collect (l : EventLoop κ φ) (pfds : List PollFd) : EventLoop κ φ :=
  { l with poller := l.poller.drain pfds, ready := translate pfds }

/-! The sections under the poller's mutex. `poller::add`, `update` and `drop` are one of
them followed by `interrupt`, the write to the eventfd. -/

def setFd (l : EventLoop κ φ) (h : Handle) (events : Interest) : EventLoop κ φ :=
  { l with poller := l.poller.set h (toPollMask events) }

def updateFd (l : EventLoop κ φ) (h : Handle) (events : Interest) : EventLoop κ φ :=
  { l with poller := l.poller.setIfPresent h (toPollMask events) }

def dropFd (l : EventLoop κ φ) (h : Handle) : EventLoop κ φ :=
  { l with poller := l.poller.erase h }

def interrupt (l : EventLoop κ φ) : EventLoop κ φ := { l with poller := l.poller.poke }

/-! The calls as a thread alone makes them: their sections in a row. -/

def watch (l : EventLoop κ φ) (h : Handle) (events : Interest) (cb : κ) : EventLoop κ φ :=
  ((l.setWatch h events cb).setFd h events).interrupt

def modify (l : EventLoop κ φ) (h : Handle) (events : Interest) : EventLoop κ φ :=
  match l.setInterest h events with
  | none => l
  | some l' => (l'.updateFd h events).interrupt

def unwatch (l : EventLoop κ φ) (h : Handle) : EventLoop κ φ :=
  ((l.eraseWatch h).dropFd h).interrupt

def defer (l : EventLoop κ φ) (fn : φ) : EventLoop κ φ := (l.pushDeferred fn).interrupt

def setTimeout (l : EventLoop κ φ) (now delay : Int) (fn : φ) : Nat × EventLoop κ φ :=
  (l.nextTimerId, (l.pushTimer now delay fn).interrupt)

theorem callback_setWatch (l : EventLoop κ φ) (h k : Handle) (events : Interest) (cb : κ) :
    (l.setWatch h events cb).callback k = if h = k then some cb else l.callback k := by
  simp only [callback, setWatch, Std.ExtTreeMap.getElem?_insert, Std.compare_eq_iff_eq]
  split <;> rfl

theorem callback_eraseWatch (l : EventLoop κ φ) (h k : Handle) :
    (l.eraseWatch h).callback k = if h = k then none else l.callback k := by
  simp only [callback, eraseWatch, Std.ExtTreeMap.getElem?_erase, Std.compare_eq_iff_eq]
  split <;> rfl

theorem callback_setInterest {l l' : EventLoop κ φ} {h : Handle} {events : Interest}
    (hl : l.setInterest h events = some l') (k : Handle) : l'.callback k = l.callback k := by
  obtain ⟨e, he, rfl⟩ := Option.map_eq_some_iff.mp hl
  simp only [callback, Std.ExtTreeMap.getElem?_insert, Std.compare_eq_iff_eq]
  split
  · next hk => rw [← hk, he]; rfl
  · rfl

/-! What the whole calls do to the watch table. -/

theorem watches_watch (l : EventLoop κ φ) (h k : Handle) (events : Interest) (cb : κ) :
    (l.watch h events cb).watches[k]? = if h = k then some { events, cb } else l.watches[k]? := by
  simp only [watch, interrupt, setFd, setWatch, Std.ExtTreeMap.getElem?_insert, Std.compare_eq_iff_eq]

theorem watches_unwatch (l : EventLoop κ φ) (h k : Handle) :
    (l.unwatch h).watches[k]? = if h = k then none else l.watches[k]? := by
  simp only [unwatch, interrupt, dropFd, eraseWatch, Std.ExtTreeMap.getElem?_erase, Std.compare_eq_iff_eq]

theorem watches_modify (l : EventLoop κ φ) (h k : Handle) (events : Interest) :
    (l.modify h events).watches[k]? =
      if h = k then l.watches[k]?.map fun e => { e with events } else l.watches[k]? := by
  unfold modify setInterest
  cases he : l.watches[h]? with
  | none =>
      simp only [Option.map_none]
      split
      · next hk => rw [← hk, he]; rfl
      · rfl
  | some e =>
      simp only [Option.map_some, interrupt, updateFd, Std.ExtTreeMap.getElem?_insert, Std.compare_eq_iff_eq]
      split
      · next hk => rw [← hk, he]; rfl
      · rfl

/-! What they do to the callbacks that dispatch finds. -/

theorem callback_watch (l : EventLoop κ φ) (h : Handle) (events : Interest) (cb : κ) :
    (l.watch h events cb).callback = Function.update l.callback h (some cb) := by
  funext k
  simp only [callback, watches_watch, Function.update_apply, eq_comm]
  split <;> rfl

theorem callback_unwatch (l : EventLoop κ φ) (h : Handle) :
    (l.unwatch h).callback = Function.update l.callback h none := by
  funext k
  simp only [callback, watches_unwatch, Function.update_apply, eq_comm]
  split <;> rfl

theorem callback_modify (l : EventLoop κ φ) (h : Handle) (events : Interest) :
    (l.modify h events).callback = l.callback := by
  funext k
  simp only [callback, watches_modify]
  split
  · rw [Option.map_map]
    rfl
  · rfl

/-- The poller polls no handle that is not watched. -/
def Covered (l : EventLoop κ φ) : Prop := ∀ h, h ∈ l.poller.fds → h ∈ l.watches

theorem Covered.watch {l : EventLoop κ φ} (hl : l.Covered) (h : Handle) (events : Interest) (cb : κ) :
    (l.watch h events cb).Covered := by
  intro k hk
  simp only [EventLoop.watch, interrupt, setFd, setWatch, Poller.poke, Poller.set, Std.ExtTreeMap.mem_insert] at hk ⊢
  exact hk.imp_right (hl k)

theorem Covered.unwatch {l : EventLoop κ φ} (hl : l.Covered) (h : Handle) : (l.unwatch h).Covered := by
  intro k hk
  simp only [EventLoop.unwatch, interrupt, dropFd, eraseWatch, Poller.poke, Poller.erase,
    Std.ExtTreeMap.mem_erase] at hk ⊢
  exact ⟨hk.1, hl k hk.2⟩

theorem Covered.modify {l : EventLoop κ φ} (hl : l.Covered) (h : Handle) (events : Interest) :
    (l.modify h events).Covered := by
  unfold EventLoop.modify setInterest
  cases l.watches[h]? with
  | none => exact hl
  | some e =>
      intro k hk
      simp only [Option.map_some, interrupt, updateFd, Poller.poke, Poller.setIfPresent,
        Std.ExtTreeMap.mem_insert] at hk ⊢
      split at hk
      · exact (Std.ExtTreeMap.mem_insert.mp hk).imp_right (hl k)
      · exact .inr (hl k hk)

end EventLoop
end CxNetworking.Core
