import CxNetworking.Core.Subscription
import CxNetworking.Lib.Ownership
import Mathlib.Data.List.Pairwise

/-! `core::signal` among threads, with its `scoped_connection`s. `connect`,
`disconnect_all` and the copy that `emit` makes are one section under the mutex each;
`disconnect` first locks its `weak_ptr` to the control block and then, under the mutex,
erases its entry. A `scoped_connection` is used by one thread at a time. -/
namespace CxNetworking.Core
open Execution Ownership

/-- A `connection`: `control_` with `it_`, unless it is default-constructed or moved from,
and `valid_`. -/
structure Connection where
  entry : Option Nat := none
  valid : Bool := false
  deriving DecidableEq, Repr

/-- What a `scoped_connection` does after `disconnect`: no more, the end of its destructor,
or the rest of its move assignment. -/
inductive Afterwards where
  | nothing
  | destroyed
  | assigned (src : Nat)
  deriving DecidableEq, Repr

/-- A `disconnect` that holds the control block and has still to take the mutex. -/
structure Erasure where
  thread : Nat
  object : Nat
  entry : Nat
  next : Afterwards
  deriving DecidableEq, Repr

/-- A call of `emit`, by its number: the copies still to be called, and whether one is
running. -/
structure SinkLoop where
  number : Nat
  rest : List Nat
  running : Bool := false
  deriving DecidableEq, Repr

/-- The destructor of the signal runs `disconnect_all` and then releases its `shared_ptr` to
the control block. -/
inductive Life where
  | alive
  | dying
  | gone
  deriving DecidableEq, Repr

inductive SignalNote where
  | invoked (emission id : Nat)
  | ended (emission : Nat)
  deriving DecidableEq, Repr

/-- A signal, the `scoped_connection` objects of the program and its threads. `added` are
the listed entries that `+=` made, for which there is no connection. -/
structure SharedSignal where
  signal : Signal := {}
  life : Life := .alive
  handles : Nat → Option Connection := fun _ => none
  added : List Nat := []
  pending : List Erasure := []
  underway : Nat → List SinkLoop := fun _ => []
  emissions : Nat := 0
  log : List SignalNote := []

/-- `connect k` makes a `scoped_connection` of the connection that `connect` returns. -/
inductive SignalCall where
  | add
  | connect (k : Nat)
  | construct (k : Nat)
  | moveConstruct (k src : Nat)
  | moveAssign (k src : Nat)
  | disconnect (k : Nat)
  | destroy (k : Nat)
  | disconnectAll
  | emit
  | destroySignal
  deriving DecidableEq, Repr

inductive SignalLabel where
  | call (t : Nat) (r : SignalCall)
  | next (t : Nat)
  | ret (t : Nat)
  | release
  deriving DecidableEq, Repr

def Erasure.uses (p : Erasure) : List Nat :=
  match p.next with
  | .assigned src => [p.object, src]
  | _ => [p.object]

def Erasure.Apart (p q : Erasure) : Prop := ∀ k ∈ p.uses, k ∉ q.uses

instance : Std.Symm Erasure.Apart := ⟨fun _ _ h k hk hk' => h k hk' hk⟩

namespace SharedSignal

variable {s u : SharedSignal} {a : SignalLabel}

def busy (s : SharedSignal) (k : Nat) : Bool := s.pending.any fun p => k ∈ p.uses

/-- The thread is outside the signal, or runs a listener. -/
def userCode (s : SharedSignal) (t : Nat) : Bool :=
  s.pending.all (·.thread != t) && (s.underway t).head?.all (·.running)

/-- The objects after `disconnect` and what follows it. -/
def settled (handles : Nat → Option Connection) (k : Nat) : Afterwards → Nat → Option Connection
  | .nothing => Function.update handles k ((handles k).map fun c => { c with valid := false })
  | .destroyed => Function.update handles k none
  | .assigned src => Function.update (Function.update handles src (some {})) k (handles src)

/-- The `weak_ptr` can be locked while the signal is there, or while another thread holds
the control block. -/
def disconnect (s : SharedSignal) (t k : Nat) (next : Afterwards) (c : Connection) : SharedSignal :=
  match c.entry with
  | some id =>
    if c.valid = true ∧ (s.life ≠ .gone ∨ s.pending ≠ []) then
      { s with pending := ⟨t, k, id, next⟩ :: s.pending }
    else { s with handles := settled s.handles k next }
  | none => { s with handles := settled s.handles k next }

def call (s : SharedSignal) (t : Nat) : SignalCall → Option SharedSignal
  | .add =>
    if s.life = .alive then some { s with signal := s.signal.connect, added := s.signal.connects :: s.added } else none
  | .connect k =>
    if s.life = .alive ∧ s.handles k = none then
      some { s with
        signal := s.signal.connect
        handles := Function.update s.handles k (some { entry := some s.signal.connects, valid := true }) }
    else none
  | .construct k => if s.handles k = none then some { s with handles := Function.update s.handles k (some {}) } else none
  | .moveConstruct k src =>
    if s.handles k = none ∧ (s.handles src).isSome ∧ s.busy src = false then
      some { s with handles := settled s.handles k (.assigned src) }
    else none
  | .moveAssign k src =>
    match s.handles k with
    | some c =>
      if (s.handles src).isSome ∧ s.busy k = false ∧ s.busy src = false then
        some (if k = src then s else s.disconnect t k (.assigned src) c)
      else none
    | none => none
  | .disconnect k =>
    match s.handles k with
    | some c => if s.busy k = false then some (s.disconnect t k .nothing c) else none
    | none => none
  | .destroy k =>
    match s.handles k with
    | some c => if s.busy k = false then some (s.disconnect t k .destroyed c) else none
    | none => none
  | .disconnectAll => if s.life = .alive then some { s with signal := s.signal.disconnectAll, added := [] } else none
  | .emit =>
    if s.life = .alive then
      some { s with
        underway := Function.update s.underway t ({ number := s.emissions, rest := s.signal.sinks } :: s.underway t)
        emissions := s.emissions + 1 }
    else none
  | .destroySignal =>
    if s.life = .alive then some { s with signal := s.signal.disconnectAll, added := [], life := .dying } else none

def advance (s : SharedSignal) (t : Nat) : Option SharedSignal :=
  match s.underway t with
  | { number, rest := [], running := false } :: outer =>
    some { s with underway := Function.update s.underway t outer, log := .ended number :: s.log }
  | { number, rest := id :: rest, running := false } :: outer =>
    some { s with
      underway := Function.update s.underway t ({ number, rest, running := true } :: outer)
      log := .invoked number id :: s.log }
  | _ => none

def step (s : SharedSignal) : SignalLabel → Option SharedSignal
  | .call t r => if s.userCode t then s.call t r else none
  | .next t =>
    match s.pending.find? (·.thread == t) with
    | some p =>
      some { s with
        signal := s.signal.erase p.entry
        handles := settled s.handles p.object p.next
        pending := s.pending.erase p }
    | none => s.advance t
  | .ret t =>
    if s.userCode t then
      match s.underway t with
      | { number, rest, running := true } :: outer =>
        some { s with underway := Function.update s.underway t ({ number, rest } :: outer) }
      | _ => none
    else none
  | .release => if s.life = .dying then some { s with life := .gone } else none

/-- The steps; each of the ways to begin a `disconnect` has its own guard. -/
inductive Step (s : SharedSignal) : SignalLabel → SharedSignal → Prop
  | add {i} : s.life = .alive →
      Step s (.call i .add) { s with signal := s.signal.connect, added := s.signal.connects :: s.added }
  | connect {i k} : s.life = .alive → s.handles k = none → Step s (.call i (.connect k)) { s with
      signal := s.signal.connect
      handles := Function.update s.handles k (some { entry := some s.signal.connects, valid := true }) }
  | construct {i k} : s.handles k = none →
      Step s (.call i (.construct k)) { s with handles := Function.update s.handles k (some {}) }
  | moveConstruct {i k src c} : s.handles k = none → s.handles src = some c → s.busy src = false →
      Step s (.call i (.moveConstruct k src)) { s with handles := settled s.handles k (.assigned src) }
  | selfAssign {i k} : Step s (.call i (.moveAssign k k)) s
  | disconnect {i k next c r} : s.handles k = some c →
      (∀ j ∈ Erasure.uses ⟨i, k, 0, next⟩, s.busy j = false) → (∀ src, next = .assigned src → src ≠ k) →
      (r = .disconnect k ∨ r = .destroy k ∨ ∃ src, r = .moveAssign k src) →
      Step s (.call i r) (s.disconnect i k next c)
  | disconnectAll {i} : s.life = .alive →
      Step s (.call i .disconnectAll) { s with signal := s.signal.disconnectAll, added := [] }
  | emit {i} : s.life = .alive → Step s (.call i .emit) { s with
      underway := Function.update s.underway i ({ number := s.emissions, rest := s.signal.sinks } :: s.underway i)
      emissions := s.emissions + 1 }
  | destroySignal {i} : s.life = .alive → Step s (.call i .destroySignal)
      { s with signal := s.signal.disconnectAll, added := [], life := .dying }
  | erase {i p} : p ∈ s.pending → Step s (.next i) { s with
      signal := s.signal.erase p.entry
      handles := settled s.handles p.object p.next
      pending := s.pending.erase p }
  | finish {i number outer} : s.underway i = { number, rest := [] } :: outer → Step s (.next i)
      { s with underway := Function.update s.underway i outer, log := .ended number :: s.log }
  | invoke {i number id rest outer} : s.underway i = { number, rest := id :: rest } :: outer → Step s (.next i)
      { s with
        underway := Function.update s.underway i ({ number, rest, running := true } :: outer)
        log := .invoked number id :: s.log }
  | ret {i number rest outer} : s.underway i = { number, rest, running := true } :: outer → Step s (.ret i)
      { s with underway := Function.update s.underway i ({ number, rest } :: outer) }
  | release : s.life = .dying → Step s .release { s with life := .gone }

theorem call_spec {i : Nat} {r : SignalCall} (h : s.call i r = some u) : Step s (.call i r) u := by
  cases r with
  | add =>
      obtain ⟨hl, h⟩ := Option.ite_none_right_eq_some.mp h
      cases h
      exact .add hl
  | connect k =>
      obtain ⟨⟨hl, hk⟩, h⟩ := Option.ite_none_right_eq_some.mp h
      cases h
      exact .connect hl hk
  | construct k =>
      obtain ⟨hk, h⟩ := Option.ite_none_right_eq_some.mp h
      cases h
      exact .construct hk
  | moveConstruct k src =>
      obtain ⟨⟨hk, hsrc, hb⟩, h⟩ := Option.ite_none_right_eq_some.mp h
      obtain ⟨c, hsrc⟩ := Option.isSome_iff_exists.mp hsrc
      cases h
      exact .moveConstruct hk hsrc hb
  | moveAssign k src =>
      simp only [call] at h
      split at h
      next c hk =>
        obtain ⟨⟨-, hbk, hbs⟩, h⟩ := Option.ite_none_right_eq_some.mp h
        cases h
        split
        next he =>
          subst he
          exact .selfAssign
        next hne =>
          refine .disconnect hk ?_ ?_ (.inr (.inr ⟨src, rfl⟩))
          · simp only [Erasure.uses]
            exact List.forall_mem_cons.mpr ⟨hbk, List.forall_mem_singleton.mpr hbs⟩
          · rintro _ ⟨⟩
            exact Ne.symm hne
      next => cases h
  | disconnect k =>
      simp only [call] at h
      split at h
      next c hk =>
        obtain ⟨hb, h⟩ := Option.ite_none_right_eq_some.mp h
        cases h
        exact .disconnect hk (List.forall_mem_singleton.mpr hb) (by simp) (.inl rfl)
      next => cases h
  | destroy k =>
      simp only [call] at h
      split at h
      next c hk =>
        obtain ⟨hb, h⟩ := Option.ite_none_right_eq_some.mp h
        cases h
        exact .disconnect hk (List.forall_mem_singleton.mpr hb) (by simp) (.inr (.inl rfl))
      next => cases h
  | disconnectAll =>
      obtain ⟨hl, h⟩ := Option.ite_none_right_eq_some.mp h
      cases h
      exact .disconnectAll hl
  | emit =>
      obtain ⟨hl, h⟩ := Option.ite_none_right_eq_some.mp h
      cases h
      exact .emit hl
  | destroySignal =>
      obtain ⟨hl, h⟩ := Option.ite_none_right_eq_some.mp h
      cases h
      exact .destroySignal hl

theorem step_spec (h : s.step a = some u) : Step s a u := by
  cases a with
  | call th r =>
      obtain ⟨-, h⟩ := Option.ite_none_right_eq_some.mp h
      exact call_spec h
  | next th =>
      simp only [step] at h
      split at h
      next p hp =>
        cases h
        exact .erase (List.mem_of_find?_eq_some hp)
      next =>
        unfold advance at h
        split at h
        next hs => cases h; exact .finish hs
        next hs => cases h; exact .invoke hs
        next => cases h
  | ret th =>
      obtain ⟨-, h⟩ := Option.ite_none_right_eq_some.mp h
      split at h
      next hs => cases h; exact .ret hs
      next => cases h
  | release =>
      obtain ⟨hl, h⟩ := Option.ite_none_right_eq_some.mp h
      cases h
      exact .release hl

end SharedSignal

/-! ### The entries and their owners -/

def Connection.owns (c : Connection) : Option Nat := if c.valid then c.entry else none

namespace SharedSignal

variable {s u : SharedSignal} {a : SignalLabel}

def owns (handles : Nat → Option Connection) (k : Nat) : Option Nat := (handles k).bind Connection.owns

theorem owns_update (handles : Nat → Option Connection) (k : Nat) (x : Option Connection) :
    owns (Function.update handles k x) = Function.update (owns handles) k (x.bind Connection.owns) :=
  Function.comp_update (Option.bind · Connection.owns) handles k x

/-- Nothing is owned after a `disconnect` that was not owned before, up to the object that
takes over in a move assignment. -/
theorem owned_settled {table loose : List Nat} {handles : Nat → Option Connection} {k : Nat} {next : Afterwards}
    (h : Owned table (Function.update (owns handles) k none) loose) (hne : ∀ src, next = .assigned src → src ≠ k) :
    Owned table (owns (settled handles k next)) loose := by
  cases next with
  | nothing =>
      have hnone : ((handles k).map fun c => { c with valid := false }).bind Connection.owns = none := by
        cases handles k <;> rfl
      rw [settled, owns_update, hnone]
      exact h
  | destroyed =>
      rw [settled, owns_update]
      exact h
  | assigned src =>
      have hsrc : src ≠ k := hne src rfl
      rw [settled, owns_update, owns_update]
      change Owned table (Function.update (Function.update (owns handles) src none) k (owns handles src)) loose
      rw [Function.update_comm hsrc]
      cases ho : owns handles src with
      | none =>
          have hsame : Function.update (owns handles) k none src = none := by rw [Function.update_of_ne hsrc, ho]
          have hself := Function.update_eq_self src (Function.update (owns handles) k none)
          rw [hsame] at hself
          rwa [hself]
      | some id =>
          have hsome : Function.update (owns handles) k none src = some id := by rw [Function.update_of_ne hsrc, ho]
          have hstore := (h.unload hsome).store (o := k) (by rw [Function.update_of_ne hsrc.symm, Function.update_self])
          rwa [Function.update_comm hsrc.symm, Function.update_idem, Function.update_comm hsrc] at hstore

/-- How the signal may be used together with `scoped_connection`s: `disconnect_all` only
when none of them is connected, and no `disconnect` while the signal is being destroyed. -/
def Careful (s : SharedSignal) : SignalLabel → Prop
  | .call _ .disconnectAll => ∀ id ∈ s.signal.sinks, id ∈ s.added
  | .call _ .destroySignal => s.pending = []
  | .call _ (.disconnect k) | .call _ (.destroy k) | .call _ (.moveAssign k _) =>
    s.life = .dying → (s.handles k).all (fun c => !c.valid) = true
  | _ => True

structure Tended (s : SharedSignal) : Prop where
  owned : s.life = .alive → Owned s.signal.sinks (owns s.handles) s.added
  left : s.life ≠ .alive → s.signal.sinks = [] ∧ s.pending = []
  clean : s.signal.dangling = []
  issued : ∀ id ∈ s.signal.sinks, id < s.signal.connects
  pending : ∀ p ∈ s.pending, s.handles p.object = some { entry := some p.entry, valid := true }
  moving : ∀ p ∈ s.pending, ∀ src, p.next = .assigned src → src ≠ p.object
  apart : s.pending.Pairwise Erasure.Apart

theorem tended_start : Tended {} where
  owned _ := Owned.start
  left h := absurd rfl h
  clean := rfl
  issued := by simp
  pending := by simp
  moving := by simp
  apart := List.Pairwise.nil

theorem settled_of_not_used {handles : Nat → Option Connection} {p : Erasure} {j : Nat} (h : j ∉ p.uses) :
    settled handles p.object p.next j = handles j := by
  unfold Erasure.uses at h
  cases hn : p.next with
  | nothing | destroyed =>
      rw [hn] at h
      exact Function.update_of_ne (fun he => h (List.mem_singleton.mpr he)) _ _
  | assigned src =>
      rw [hn] at h
      simp only [List.mem_cons, List.not_mem_nil, or_false, not_or] at h
      rw [settled, Function.update_of_ne h.1, Function.update_of_ne h.2]

theorem object_mem_uses (p : Erasure) : p.object ∈ p.uses := by
  unfold Erasure.uses
  split <;> exact List.mem_cons_self

namespace Tended

theorem owns_pending (hs : s.Tended) {p : Erasure} (hp : p ∈ s.pending) : owns s.handles p.object = some p.entry := by
  rw [owns, hs.pending p hp]
  rfl

theorem alive (hs : s.Tended) {p : Erasure} (hp : p ∈ s.pending) : s.life = .alive := by
  by_contra hne
  rw [(hs.left hne).2] at hp
  cases hp

theorem issued_connect (hs : s.Tended) : ∀ id ∈ s.signal.connect.sinks, id < s.signal.connect.connects := by
  intro id hid
  rcases List.mem_append.mp hid with hid | hid
  · exact Nat.lt_succ_of_lt (hs.issued id hid)
  · rw [List.mem_singleton.mp hid]
    exact Nat.lt_succ_self _

theorem unused (hs : s.Tended) : s.signal.connects ∉ s.signal.sinks := fun hm => Nat.lt_irrefl _ (hs.issued _ hm)

theorem rehandle {handles : Nat → Option Connection} (hs : s.Tended)
    (howned : s.life = .alive → Owned s.signal.sinks (owns handles) s.added)
    (hkeep : ∀ p ∈ s.pending, handles p.object = s.handles p.object) : Tended { s with handles } :=
  { hs with
    owned := howned
    pending := fun p hp => (hkeep p hp).trans (hs.pending p hp) }

theorem settle {k : Nat} {next : Afterwards} (hs : s.Tended) (hk : s.life = .alive → owns s.handles k = none)
    (hfree : ∀ j ∈ Erasure.uses ⟨0, k, 0, next⟩, ∀ p ∈ s.pending, j ≠ p.object)
    (hne : ∀ src, next = .assigned src → src ≠ k) : Tended { s with handles := settled s.handles k next } := by
  apply hs.rehandle
  · intro hl
    apply owned_settled _ hne
    rw [← hk hl, Function.update_eq_self]
    exact hs.owned hl
  · intro p hp
    apply settled_of_not_used (p := ⟨0, k, 0, next⟩)
    intro hm
    exact hfree _ hm p hp rfl

end Tended

theorem not_used_of_not_busy {k : Nat} (h : s.busy k = false) {p : Erasure} (hp : p ∈ s.pending) : k ∉ p.uses := by
  have := List.any_eq_false.mp h p hp
  simpa using this

theorem ne_of_not_busy {k : Nat} (h : s.busy k = false) {p : Erasure} (hp : p ∈ s.pending) : k ≠ p.object :=
  fun he => not_used_of_not_busy h hp (he ▸ object_mem_uses p)

/-- `disconnect` waits for the mutex with an entry that is connected, or ends at once. -/
theorem disconnect_tended {i k : Nat} {next : Afterwards} {c : Connection} (hs : s.Tended) (hk : s.handles k = some c)
    (hfree : ∀ j ∈ Erasure.uses ⟨i, k, 0, next⟩, s.busy j = false) (hne : ∀ src, next = .assigned src → src ≠ k)
    (hquiet : s.life = .dying → c.valid = false) : (s.disconnect i k next c).Tended := by
  have hsettle (hno : s.life = .alive → owns s.handles k = none) :
      Tended { s with handles := settled s.handles k next } :=
    hs.settle hno (fun j hj p hp => ne_of_not_busy (hfree j hj) hp) hne
  unfold SharedSignal.disconnect
  split
  next id hid =>
    split
    next hgo =>
      have hl : s.life = .alive := by
        by_contra hl
        rcases hgo.2 with hd | hp
        · cases hlife : s.life with
          | alive => exact hl hlife
          | dying => rw [hquiet hlife] at hgo; cases hgo.1
          | gone => exact hd hlife
        · exact hp (hs.left hl).2
      refine { hs with left := fun hne => absurd hl hne, pending := ?_, moving := ?_, apart := ?_ }
      · refine List.forall_mem_cons.mpr ⟨?_, hs.pending⟩
        rw [hk, ← hid, ← hgo.1]
      · exact List.forall_mem_cons.mpr ⟨hne, hs.moving⟩
      · refine List.pairwise_cons.mpr ⟨?_, hs.apart⟩
        exact fun p hp j hj => not_used_of_not_busy (hfree j hj) hp
    next hstop =>
      apply hsettle
      intro hl
      have hv : c.valid = false := by
        by_contra hv
        exact hstop ⟨by simpa using hv, .inl (by simp [hl])⟩
      simp [owns, hk, Connection.owns, hv]
  next hid =>
    apply hsettle
    intro _
    simp [owns, hk, Connection.owns, hid]

theorem erase_tended {p : Erasure} (hs : s.Tended) (hp : p ∈ s.pending) :
    Tended { s with
      signal := s.signal.erase p.entry
      handles := settled s.handles p.object p.next
      pending := s.pending.erase p } := by
  have hl := hs.alive hp
  have howns := hs.owns_pending hp
  have hmem := (hs.owned hl).mem_of_holds howns
  have hnodup : s.pending.Nodup := by
    apply hs.apart.imp
    rintro p _ hpp rfl
    exact hpp _ (object_mem_uses p) (object_mem_uses p)
  have happart {q : Erasure} (hq : q ∈ s.pending.erase p) : q.object ∉ p.uses := by
    have hq' := hnodup.mem_erase_iff.mp hq
    have hpq := hs.apart.forall hp hq'.2 (Ne.symm hq'.1)
    exact fun hm => hpq _ hm (object_mem_uses q)
  constructor
  · intro _
    change Owned (s.signal.erase p.entry).sinks _ _
    rw [Signal.erase_sinks]
    exact owned_settled ((hs.owned hl).clear howns) (hs.moving p hp)
  · exact fun hne => absurd hl hne
  · change (s.signal.erase p.entry).dangling = []
    rw [Signal.erase_dangling, if_pos hmem]
    exact hs.clean
  · intro id hid
    change id ∈ (s.signal.erase p.entry).sinks at hid
    change id < (s.signal.erase p.entry).connects
    rw [Signal.erase_sinks] at hid
    rw [Signal.erase_connects]
    exact hs.issued id (List.mem_of_mem_erase hid)
  · intro q hq
    exact (settled_of_not_used (happart hq)).trans (hs.pending q (List.mem_of_mem_erase hq))
  · exact fun q hq => hs.moving q (List.mem_of_mem_erase hq)
  · exact hs.apart.sublist List.erase_sublist

theorem step_tended (hs : s.Tended) (hok : s.Careful a) (h : s.step a = some u) : u.Tended := by
  cases step_spec h with
  | add hl =>
      refine { hs with owned := fun _ => ?_, left := fun hne => absurd hl hne, issued := hs.issued_connect }
      exact ((hs.owned hl).acquire hs.unused).of_perm (List.perm_append_singleton _ _) (List.Perm.refl _)
  | @connect i k hl hk =>
      refine { hs with
        owned := ?_, left := fun hne => absurd hl hne, issued := hs.issued_connect, pending := ?_ }
      · intro _
        have hnone : owns s.handles k = none := by rw [owns, hk]; rfl
        rw [owns_update]
        exact (((hs.owned hl).acquire hs.unused).store hnone).of_perm (List.perm_append_singleton _ _) (List.Perm.refl _)
      · intro p hp
        have hne : p.object ≠ k := by
          rintro rfl
          cases hk.symm.trans (hs.pending p hp)
        exact (Function.update_of_ne hne _ _).trans (hs.pending p hp)
  | @construct i k hk =>
      apply hs.rehandle
      · intro hl
        have hnone : owns s.handles k = (some ({} : Connection)).bind Connection.owns := by rw [owns, hk]; rfl
        rw [owns_update, ← hnone, Function.update_eq_self]
        exact hs.owned hl
      · intro p hp
        apply Function.update_of_ne
        rintro rfl
        cases hk.symm.trans (hs.pending p hp)
  | @moveConstruct i k src c hk hsrc hb =>
      apply hs.settle
      · intro _
        rw [owns, hk]
        rfl
      · intro j hj p hp
        rcases List.mem_cons.mp hj with rfl | hj
        · rintro rfl
          cases hk.symm.trans (hs.pending p hp)
        · rw [List.mem_singleton.mp hj]
          exact ne_of_not_busy hb hp
      · rintro _ ⟨⟩ rfl
        cases hk.symm.trans hsrc
  | selfAssign => exact hs
  | @disconnect i k next c r hk hfree hne hr =>
      have hquiet : s.life = .dying → c.valid = false := by
        intro hl
        have hall : (s.handles k).all (fun c => !c.valid) = true := by
          rcases hr with rfl | rfl | ⟨src, rfl⟩ <;> exact hok hl
        simpa [hk] using hall
      exact disconnect_tended hs hk hfree hne hquiet
  | disconnectAll hl =>
      have hnone (k : Nat) : owns s.handles k = none := by
        cases ho : owns s.handles k with
        | none => rfl
        | some id =>
            have howned := hs.owned hl
            exact absurd (hok id (howned.mem_of_holds ho)) (howned.apart k id ho)
      refine { hs with owned := fun _ => ?_, left := fun hne => absurd hl hne, issued := by simp [Signal.disconnectAll] }
      rw [show owns s.handles = fun _ => none from funext hnone]
      exact Owned.start
  | emit _ => exact { hs with }
  | destroySignal _ =>
      exact { hs with owned := by simp, left := fun _ => ⟨rfl, hok⟩, issued := by simp [Signal.disconnectAll] }
  | @erase i p hp =>
      exact erase_tended hs hp
  | finish _ | invoke _ | ret _ => exact { hs with }
  | release hl => exact { hs with owned := by simp, left := fun _ => hs.left (by simp [hl]) }

instance : DecidablePred s.Careful
  | .call _ .disconnectAll => inferInstanceAs (Decidable (∀ id ∈ s.signal.sinks, id ∈ s.added))
  | .call _ .destroySignal => inferInstanceAs (Decidable (s.pending = []))
  | .call _ (.disconnect k) | .call _ (.destroy k) | .call _ (.moveAssign k _) =>
    inferInstanceAs (Decidable (s.life = .dying → (s.handles k).all (fun c => !c.valid) = true))
  | .call _ .add | .call _ (.connect _) | .call _ (.construct _) | .call _ (.moveConstruct _ _) | .call _ .emit | .next _
    | .ret _ | .release => inferInstanceAs (Decidable True)

theorem owns_eq_some {handles : Nat → Option Connection} {k id : Nat} :
    owns handles k = some id ↔ handles k = some { entry := some id, valid := true } := by
  rw [owns, Option.bind_eq_some_iff]
  constructor
  · rintro ⟨⟨entry, valid⟩, hk, ho⟩
    cases valid
    · cases ho
    · rw [hk, show entry = some id from ho]
  · intro hk
    exact ⟨_, hk, rfl⟩

/-- A `scoped_connection` owns its listener, whatever moves and whichever threads are under
way: each listener that is connected was added by `+=` or belongs to one
`scoped_connection`, which alone disconnects it, and no erasure misses its entry. -/
theorem scoped_owns {as : List SignalLabel} (h : run step {} as = some s) (hok : Along step Careful {} as) :
    s.signal.dangling = [] ∧
      (s.life = .alive → s.signal.sinks.Nodup ∧
        (∀ id, id ∈ s.signal.sinks ↔
          id ∈ s.added ∨ ∃ k, s.handles k = some { entry := some id, valid := true }) ∧
        ∀ k id, s.handles k = some { entry := some id, valid := true } →
          id ∉ s.added ∧ ∀ k', s.handles k' = some { entry := some id, valid := true } → k' = k) := by
  have hs : s.Tended :=
    (throughout_of_along (fun _ _ _ hi hok hs => step_tended hi hok hs) tended_start hok).last h
  refine ⟨hs.clean, fun hl => ?_⟩
  have ho := hs.owned hl
  simp only [← owns_eq_some]
  refine ⟨ho.nodup, ho.mem_iff, ?_⟩
  intro k id hk
  exact ⟨ho.apart k id hk, fun k' hk' => ho.alone k' k id hk' hk⟩

/-- Thread 1 moves its connection onto another one, which is erased while thread 0 connects
and emits. -/
def reassignedRun : List SignalLabel :=
  [.call 0 .add, .call 1 (.connect 7), .call 1 (.connect 8), .call 1 (.moveAssign 7 8), .call 0 (.connect 5),
    .call 0 .emit, .next 1, .next 0, .call 1 (.destroy 8)]

theorem reassignedRun_owns :
    ∃ s, run step {} reassignedRun = some s ∧ s.life = .alive ∧ s.signal.sinks = [0, 2, 3] ∧
      s.signal.dangling = [] ∧ s.handles 7 = some { entry := some 2, valid := true } ∧ 2 ∉ s.added := by
  have ho := scoped_owns (h := (rfl : run step {} reassignedRun = _)) (by decide)
  exact ⟨_, rfl, rfl, rfl, ho.1, rfl, ((ho.2 rfl).2.2 7 2 rfl).1⟩

/-- The condition on the destructor matters: it clears the list between the two sections of
a `disconnect`. -/
example : ∃ s, run step {} [.call 1 (.connect 7), .call 1 (.disconnect 7), .call 0 .destroySignal, .next 1] = some s ∧
    s.signal.dangling = [0] :=
  ⟨_, rfl, rfl⟩

/-! ### What an emission calls -/

def SignalNote.number : SignalNote → Nat
  | .invoked e _ | .ended e => e

def SignalNote.calls (e : Nat) : SignalNote → Option Nat
  | .invoked e' id => if e' = e then some id else none
  | .ended _ => none

def invokedBy (e : Nat) (log : List SignalNote) : List Nat := (log.filterMap (SignalNote.calls e)).reverse

def loops (s : SharedSignal) (e j : Nat) : List SinkLoop := (s.underway j).filter (·.number == e)

structure Numbered (s : SharedSignal) : Prop where
  underway : ∀ j, ∀ l ∈ s.underway j, l.number < s.emissions
  log : ∀ n ∈ s.log, SignalNote.number n < s.emissions

/-- What a step does to the underway and the log: nothing, or it begins an emission, or it
goes on with the innermost one of a thread. -/
inductive Moves (s : SharedSignal) : SharedSignal → Prop
  | still {u : SharedSignal} : u.underway = s.underway → u.log = s.log → u.emissions = s.emissions → Moves s u
  | begin {i : Nat} : Moves s { s with
      underway := Function.update s.underway i ({ number := s.emissions, rest := s.signal.sinks } :: s.underway i)
      emissions := s.emissions + 1 }
  | finish {i number outer} : s.underway i = { number, rest := [] } :: outer → Moves s { s with
      underway := Function.update s.underway i outer
      log := .ended number :: s.log }
  | invoke {i number id rest outer} : s.underway i = { number, rest := id :: rest } :: outer → Moves s { s with
      underway := Function.update s.underway i ({ number, rest, running := true } :: outer)
      log := .invoked number id :: s.log }
  | ret {i number rest outer} : s.underway i = { number, rest, running := true } :: outer → Moves s { s with
      underway := Function.update s.underway i ({ number, rest } :: outer) }

theorem step_moves (h : s.step a = some u) : Moves s u := by
  cases step_spec h with
  | add _ | connect _ _ | construct _ | moveConstruct _ _ _ | selfAssign | disconnectAll _ | destroySignal _ | erase _
    | release _ => exact .still rfl rfl rfl
  | disconnect _ _ _ _ =>
      unfold SharedSignal.disconnect
      split
      · split <;> exact .still rfl rfl rfl
      · exact .still rfl rfl rfl
  | emit _ => exact .begin
  | finish hs => exact .finish hs
  | invoke hs => exact .invoke hs
  | ret hs => exact .ret hs

theorem forall_update {i : Nat} {stack : List SinkLoop} {P : SinkLoop → Prop} (h : ∀ j, ∀ l ∈ s.underway j, P l)
    (hstack : ∀ l ∈ stack, P l) (j : Nat) : ∀ l ∈ Function.update s.underway i stack j, P l := by
  by_cases hj : j = i
  · subst hj
    rw [Function.update_self]
    exact hstack
  · rw [Function.update_of_ne hj]
    exact h j

theorem step_numbered (hs : s.Numbered) (h : Moves s u) : u.Numbered := by
  cases h with
  | still hstacks hlog hcount =>
      constructor
      · rw [hstacks, hcount]
        exact hs.underway
      · rw [hlog, hcount]
        exact hs.log
  | @begin i =>
      have hold (j : Nat) (l : SinkLoop) (hl : l ∈ s.underway j) : l.number < s.emissions + 1 :=
        Nat.lt_succ_of_lt (hs.underway j l hl)
      constructor
      · exact forall_update hold (List.forall_mem_cons.mpr ⟨Nat.lt_succ_self _, hold i⟩)
      · exact fun n hn => Nat.lt_succ_of_lt (hs.log n hn)
  | @finish i number outer hst =>
      have hall := List.forall_mem_cons.mp (hst ▸ hs.underway i)
      constructor
      · exact forall_update hs.underway hall.2
      · exact List.forall_mem_cons.mpr ⟨hall.1, hs.log⟩
  | @invoke i number id rest outer hst =>
      have hall := List.forall_mem_cons.mp (hst ▸ hs.underway i)
      constructor
      · exact forall_update hs.underway (List.forall_mem_cons.mpr hall)
      · exact List.forall_mem_cons.mpr ⟨hall.1, hs.log⟩
  | @ret i number rest outer hst =>
      have hall := List.forall_mem_cons.mp (hst ▸ hs.underway i)
      exact ⟨forall_update hs.underway (List.forall_mem_cons.mpr hall), hs.log⟩

/-- Emission `e` runs on thread `i` and has called a first part of what it copied. -/
structure Follows (e i : Nat) (copied : List Nat) (s : SharedSignal) : Prop where
  issued : e < s.emissions
  elsewhere : ∀ j, j ≠ i → s.loops e j = []
  here : (.ended e ∈ s.log ∧ s.loops e i = [] ∧ invokedBy e s.log = copied) ∨
    (.ended e ∉ s.log ∧ ∃ l, s.loops e i = [l] ∧ invokedBy e s.log ++ l.rest = copied)

theorem loops_update (e i j : Nat) (stack : List SinkLoop) (v : SharedSignal)
    (hv : v.underway = Function.update s.underway i stack) :
    v.loops e j = if j = i then stack.filter (·.number == e) else s.loops e j := by
  rw [loops, hv]
  split
  next he => rw [he, Function.update_self]
  next hne => rw [Function.update_of_ne hne]; rfl

theorem Follows.other {e i k : Nat} {copied : List Nat} {l : SinkLoop} {outer stack : List SinkLoop}
    (hs : s.Follows e i copied) (notes : List SignalNote) (hst : s.underway k = l :: outer) (hne : l.number ≠ e)
    (hstack : stack.filter (·.number == e) = outer.filter (·.number == e))
    (hnotes : ∀ n ∈ notes, SignalNote.number n ≠ e) :
    Follows e i copied { s with underway := Function.update s.underway k stack, log := notes ++ s.log } := by
  have hk : s.loops e k = stack.filter (·.number == e) := by
    rw [loops, hst, List.filter_cons_of_neg (by simpa using hne), hstack]
  have hloops (j : Nat) :
      ({ s with underway := Function.update s.underway k stack, log := notes ++ s.log } : SharedSignal).loops e j =
        s.loops e j := by
    rw [loops_update e k j stack _ rfl]
    split
    next he => rw [he, hk]
    next => rfl
  have hended : .ended e ∉ notes := fun hm => hnotes _ hm rfl
  have hinvoked : invokedBy e (notes ++ s.log) = invokedBy e s.log := by
    have hnone : notes.filterMap (SignalNote.calls e) = [] := by
      rw [List.filterMap_eq_nil_iff]
      intro n hn
      cases n with
      | invoked e' id => exact if_neg (hnotes _ hn)
      | ended _ => rfl
    rw [invokedBy, List.filterMap_append, hnone]
    rfl
  refine ⟨hs.issued, fun j hj => (hloops j).trans (hs.elsewhere j hj), ?_⟩
  rw [hloops, hinvoked]
  simpa [hended] using hs.here

theorem Follows.mine {e i k : Nat} {copied : List Nat} {l : SinkLoop} {outer : List SinkLoop}
    (hs : s.Follows e i copied) (hst : s.underway k = l :: outer) (he : l.number = e) :
    k = i ∧ outer.filter (·.number == e) = [] ∧ .ended e ∉ s.log ∧ invokedBy e s.log ++ l.rest = copied := by
  have hloops : s.loops e k = l :: outer.filter (·.number == e) := by
    rw [loops, hst, List.filter_cons_of_pos (by simpa using he)]
  have hk : k = i := by
    by_contra hne
    rw [hs.elsewhere k hne] at hloops
    cases hloops
  subst hk
  rcases hs.here with ⟨-, hnil, -⟩ | ⟨hended, l', hl', hcopied⟩
  · rw [hnil] at hloops
    cases hloops
  · rw [hl'] at hloops
    obtain ⟨rfl, houter⟩ := List.cons.inj hloops
    exact ⟨rfl, houter.symm, hended, hcopied⟩

theorem step_follows {e i : Nat} {copied : List Nat} (hs : s.Follows e i copied) (h : Moves s u) :
    u.Follows e i copied := by
  cases h with
  | still hstacks hlog hcount =>
      have hloops (j : Nat) : u.loops e j = s.loops e j := by rw [loops, hstacks, loops]
      refine ⟨hcount ▸ hs.issued, fun j hj => (hloops j).trans (hs.elsewhere j hj), ?_⟩
      rw [hloops, hlog]
      exact hs.here
  | @begin k =>
      have hne : s.emissions ≠ e := Nat.ne_of_gt hs.issued
      have hloops (j : Nat) : ({ s with
          underway := Function.update s.underway k ({ number := s.emissions, rest := s.signal.sinks } :: s.underway k)
          emissions := s.emissions + 1 } : SharedSignal).loops e j = s.loops e j := by
        rw [loops_update e k j _ _ rfl, List.filter_cons_of_neg (by simpa using hne)]
        split
        next he => rw [he]; rfl
        next => rfl
      refine ⟨Nat.lt_succ_of_lt hs.issued, fun j hj => (hloops j).trans (hs.elsewhere j hj), ?_⟩
      rw [hloops]
      exact hs.here
  | @finish k number outer hst =>
      by_cases he : number = e
      · obtain ⟨rfl, houter, hended, hcopied⟩ := hs.mine hst he
        subst he
        refine ⟨hs.issued, fun j hj => ?_, .inl ⟨List.mem_cons_self, ?_, ?_⟩⟩
        · rw [loops_update number k j outer _ rfl, if_neg hj]
          exact hs.elsewhere j hj
        · rw [loops_update number k k outer _ rfl, if_pos rfl, houter]
        · rw [List.append_nil] at hcopied
          exact hcopied
      · exact hs.other [.ended number] hst he rfl (List.forall_mem_singleton.mpr he)
  | @invoke k number id rest outer hst =>
      by_cases he : number = e
      · obtain ⟨rfl, houter, hended, hcopied⟩ := hs.mine hst he
        subst he
        refine ⟨hs.issued, fun j hj => ?_, .inr ⟨?_, { number, rest, running := true }, ?_, ?_⟩⟩
        · rw [loops_update number k j _ _ rfl, if_neg hj]
          exact hs.elsewhere j hj
        · simpa using hended
        · rw [loops_update number k k _ _ rfl, if_pos rfl, List.filter_cons_of_pos (by simp), houter]
        · simpa [invokedBy, SignalNote.calls] using hcopied
      · apply hs.other [.invoked number id] hst he
        · exact List.filter_cons_of_neg (by simpa using he)
        · exact List.forall_mem_singleton.mpr he
  | @ret k number rest outer hst =>
      by_cases he : number = e
      · obtain ⟨rfl, houter, hended, hcopied⟩ := hs.mine hst he
        subst he
        refine ⟨hs.issued, fun j hj => ?_, .inr ⟨hended, { number, rest }, ?_, hcopied⟩⟩
        · rw [loops_update number k j _ _ rfl, if_neg hj]
          exact hs.elsewhere j hj
        · rw [loops_update number k k _ _ rfl, if_pos rfl, List.filter_cons_of_pos (by simp), houter]
      · apply hs.other [] hst he
        · exact List.filter_cons_of_neg (by simpa using he)
        · simp

theorem follows_begin {i : Nat} (hs : s.Numbered) (h : s.step (.call i .emit) = some u) :
    u.Follows s.emissions i s.signal.sinks := by
  cases step_spec h with
  | disconnect _ _ _ hr => rcases hr with hr | hr | ⟨src, hr⟩ <;> cases hr
  | emit _ =>
      have hnone (j : Nat) : s.loops s.emissions j = [] := by
        rw [loops, List.filter_eq_nil_iff]
        intro l hl
        simpa using Nat.ne_of_lt (hs.underway j l hl)
      have hlog : .ended s.emissions ∉ s.log := fun hm => Nat.lt_irrefl _ (hs.log _ hm)
      have hinvoked : invokedBy s.emissions s.log = [] := by
        rw [invokedBy, List.reverse_eq_nil_iff, List.filterMap_eq_nil_iff]
        intro n hn
        cases n with
        | invoked e id => exact if_neg (Nat.ne_of_lt (hs.log _ hn))
        | ended _ => rfl
      refine ⟨Nat.lt_succ_self _, fun j hj => ?_, .inr ⟨hlog, { number := s.emissions, rest := s.signal.sinks }, ?_, ?_⟩⟩
      · rw [loops_update s.emissions i j _ _ rfl, if_neg hj]
        exact hnone j
      · rw [loops_update s.emissions i i _ _ rfl, if_pos rfl, List.filter_cons_of_pos (by simp)]
        exact congrArg _ (hnone i)
      · rw [hinvoked]
        rfl

theorem numbered_start : Numbered {} := ⟨by simp, by simp⟩

/-- An emission calls the listeners that were connected when it began, each once and in the
order of their connection, whatever happens meanwhile: listeners connect, disconnect and
emit, other threads do, the signal is destroyed. -/
theorem emission_exact {t : SharedSignal} {as bs : List SignalLabel} {i : Nat} (h : run step {} as = some s)
    (he : s.step (.call i .emit) = some t) (hb : run step t bs = some u) :
    (.ended s.emissions ∈ u.log ∧ invokedBy s.emissions u.log = s.signal.sinks) ∨
      (.ended s.emissions ∉ u.log ∧
        ∃ l ∈ u.underway i, l.number = s.emissions ∧ invokedBy s.emissions u.log ++ l.rest = s.signal.sinks) := by
  have hs : s.Numbered := run_invariant (fun _ _ _ hi hs => step_numbered hi (step_moves hs)) numbered_start h
  have hu : u.Follows s.emissions i s.signal.sinks :=
    run_invariant (fun _ _ _ hi hs => step_follows hi (step_moves hs)) (follows_begin hs he) hb
  rcases hu.here with ⟨hended, -, hinvoked⟩ | ⟨hended, l, hl, hinvoked⟩
  · exact .inl ⟨hended, hinvoked⟩
  · have hmem : l ∈ u.loops s.emissions i := by rw [hl]; exact List.mem_singleton_self l
    obtain ⟨hmem, hnumber⟩ := List.mem_filter.mp hmem
    exact .inr ⟨hended, l, hmem, by simpa using hnumber, hinvoked⟩

/-- The first listener destroys the connection of the second and emits again, and then the
signal is destroyed. -/
def nestedEmission : List SignalLabel :=
  [.next 0, .call 0 (.destroy 5), .next 0, .call 0 .emit, .next 0, .ret 0, .next 0, .ret 0, .call 1 .destroySignal,
    .next 0, .ret 0, .next 0]

theorem nestedEmission_exact :
    ∃ s t u, run step {} [.call 0 .add, .call 0 (.connect 5)] = some s ∧ s.step (.call 0 .emit) = some t ∧
      run step t nestedEmission = some u ∧ .ended 0 ∈ u.log ∧ invokedBy 0 u.log = [0, 1] := by
  refine ⟨_, _, _, rfl, rfl, rfl, by decide, ?_⟩
  have h := emission_exact (i := 0) (h := (rfl : run step {} [.call 0 .add, .call 0 (.connect 5)] = _)) rfl
    (rfl : run step _ nestedEmission = _)
  rcases h with ⟨-, h⟩ | ⟨h, -⟩
  · exact h
  · exact absurd (by decide) h

end SharedSignal
end CxNetworking.Core
