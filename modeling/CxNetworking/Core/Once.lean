import CxNetworking.Core.Signal
import Mathlib.Data.List.Nodup

/-! A listener added by `once` is invoked at most once, unless the event is emitted again
while an emission still has its copy ahead: the inner emission consumes the entry, and
the copy in the outer one calls the function again. -/
namespace CxNetworking.Core
open Execution

namespace Signal

def Once (s : Signal) (id : Nat) : Prop := (s.slot id).isSome = true

instance (s : Signal) : DecidablePred s.Once := fun id => inferInstanceAs (Decidable ((s.slot id).isSome = true))

theorem erase_slot (s : Signal) (id : Nat) : (s.erase id).slot = s.slot := by
  unfold erase
  split <;> rfl

theorem erase_connects (s : Signal) (id : Nat) : (s.erase id).connects = s.connects := by
  unfold erase
  split <;> rfl

theorem erase_sinks (s : Signal) (id : Nat) : (s.erase id).sinks = s.sinks.erase id := by
  unfold erase
  split
  · rfl
  · next hid => exact (List.erase_of_not_mem hid).symm

theorem disconnect_spec (s : Signal) (id : Nat) (valid : Option Bool) :
    (s.disconnect id valid).slot = s.slot ∧ (s.disconnect id valid).connects = s.connects ∧
      (s.disconnect id valid).sinks.Sublist s.sinks := by
  unfold disconnect
  split
  · rw [erase_slot, erase_connects, erase_sinks]
    exact ⟨rfl, rfl, List.erase_sublist⟩
  · exact ⟨rfl, rfl, List.Sublist.refl _⟩

/-- A `once` entry is gone behind the call of its wrapper, if the slot was valid as long as
the entry was there. -/
theorem not_mem_disconnectSlot {s : Signal} (hnodup : s.sinks.Nodup) {id : Nat}
    (hvalid : id ∈ s.sinks → s.slot id ≠ some false) (honce : s.Once id) : id ∉ (s.disconnectSlot id).sinks := by
  obtain ⟨valid, hslot⟩ := Option.isSome_iff_exists.mp honce
  simp only [disconnectSlot, disconnect, hslot, Option.some.injEq]
  cases valid with
  | true =>
      rw [if_pos rfl, erase_sinks]
      exact hnodup.not_mem_erase
  | false =>
      rw [if_neg Bool.false_ne_true]
      exact fun hmem => hvalid hmem hslot

theorem once_disconnectSlot (s : Signal) (id j : Nat) : (s.disconnectSlot id).Once j ↔ s.Once j := by
  simp only [Once, disconnectSlot, Function.update_apply]
  split
  · next hj => rw [hj, Option.isSome_map]
  · rfl

/-- The entries are distinct and numbered, as are the functions `named`, by calls made
before; and the slot of an entry in the list was not used. -/
structure Tidy (s : Signal) (named : List Nat) : Prop where
  nodup : s.sinks.Nodup
  issued : ∀ id, id ∈ s.sinks ∨ id ∈ named ∨ s.Once id → id < s.connects
  valid : ∀ id ∈ s.sinks, s.slot id ≠ some false

namespace Tidy

variable {s s' : Signal} {named : List Nat}

theorem start : Tidy {} [] where
  nodup := .nil
  issued := by simp [Once]
  valid := by simp

theorem shrink (h : Tidy s named) (hslot : s'.slot = s.slot) (hconnects : s'.connects = s.connects)
    (hsinks : s'.sinks.Sublist s.sinks) : Tidy s' named := by
  refine ⟨hsinks.nodup h.nodup, ?_, ?_⟩
  · intro id hid
    rw [hconnects]
    rw [Once, hslot] at hid
    exact h.issued id (hid.imp_left fun hs => hsinks.subset hs)
  · intro id hid
    rw [hslot]
    exact h.valid id (hsinks.subset hid)

theorem unused (h : Tidy s named) : s.connects ∉ s.sinks ∧ s.connects ∉ named ∧ s.slot s.connects = none := by
  refine ⟨?_, ?_, ?_⟩
  · intro hmem
    exact Nat.lt_irrefl _ (h.issued _ (.inl hmem))
  · intro hmem
    exact Nat.lt_irrefl _ (h.issued _ (.inr (.inl hmem)))
  · apply Option.not_isSome_iff_eq_none.mp
    intro honce
    exact Nat.lt_irrefl _ (h.issued _ (.inr (.inr honce)))

theorem grow (h : Tidy s named) (hsinks : s'.sinks = s.sinks ++ [s.connects])
    (hconnects : s'.connects = s.connects + 1) (hnew : s'.slot s.connects ≠ some false)
    (hslot : ∀ id, id ≠ s.connects → s'.slot id = s.slot id) : Tidy s' named := by
  have hold : ∀ id ∈ s'.sinks, id ≠ s.connects → id ∈ s.sinks := by
    intro id hid hk
    rw [hsinks, List.mem_append, List.mem_singleton] at hid
    exact hid.resolve_right hk
  refine ⟨?_, ?_, ?_⟩
  · rw [hsinks, ← List.concat_eq_append]
    exact h.nodup.concat h.unused.1
  · intro id hid
    rw [hconnects]
    by_cases hk : id = s.connects
    · omega
    · rw [Once, hslot id hk] at hid
      have hlt := h.issued id (hid.imp_left fun hs => hold id hs hk)
      omega
  · intro id hid
    by_cases hk : id = s.connects
    · rw [hk]
      exact hnew
    · rw [hslot id hk]
      exact h.valid id (hold id hid hk)

theorem name (h : Tidy s named) {more : List Nat} (hmore : ∀ id ∈ more, id ∈ s.sinks ∨ id ∈ named) : Tidy s more := by
  refine ⟨h.nodup, ?_, h.valid⟩
  rintro id (hs | hm | honce)
  · exact h.issued id (.inl hs)
  · exact h.issued id ((hmore id hm).imp_right .inl)
  · exact h.issued id (.inr (.inr honce))

theorem invoke (h : Tidy s named) (id : Nat) : Tidy (s.disconnectSlot id) named := by
  obtain ⟨-, hconnects, hsinks⟩ := s.disconnect_spec id (s.slot id)
  refine ⟨hsinks.nodup h.nodup, ?_, ?_⟩
  · intro j hj
    rw [once_disconnectSlot] at hj
    exact hconnects.symm ▸ h.issued j (hj.imp_left fun hs => hsinks.subset hs)
  · intro j hj
    simp only [disconnectSlot, Function.update_apply]
    split
    · next heq =>
        subst heq
        have hplain : s.slot j = none := by
          apply Option.not_isSome_iff_eq_none.mp
          intro honce
          exact not_mem_disconnectSlot h.nodup (h.valid j) honce hj
        simp [hplain]
    · exact h.valid j (hsinks.subset hj)

end Tidy

/-- A `once` function was invoked, is awaited by one emission, or neither; as long as its
entry is connected it was not invoked. -/
structure Sparing (s : Signal) (invoked awaited : List Nat) : Prop extends Tidy s (invoked ++ awaited) where
  live : ∀ id ∈ s.sinks, s.Once id → id ∉ invoked
  once : ∀ id, s.Once id → (invoked ++ awaited).count id ≤ 1

namespace Sparing

variable {s s' : Signal} {invoked awaited : List Nat}

theorem start : Sparing {} [] [] := ⟨.start, by simp, by simp⟩

theorem shrink (h : Sparing s invoked awaited) (hslot : s'.slot = s.slot) (hconnects : s'.connects = s.connects)
    (hsinks : s'.sinks.Sublist s.sinks) : Sparing s' invoked awaited := by
  refine ⟨h.toTidy.shrink hslot hconnects hsinks, ?_, ?_⟩
  · intro id hid honce
    rw [Once, hslot] at honce
    exact h.live id (hsinks.subset hid) honce
  · intro id honce
    rw [Once, hslot] at honce
    exact h.once id honce

theorem grow (h : Sparing s invoked awaited) (hsinks : s'.sinks = s.sinks ++ [s.connects])
    (hconnects : s'.connects = s.connects + 1) (hnew : s'.slot s.connects ≠ some false)
    (hslot : ∀ id, id ≠ s.connects → s'.slot id = s.slot id) : Sparing s' invoked awaited := by
  obtain ⟨-, hunnamed, -⟩ := h.toTidy.unused
  refine ⟨h.toTidy.grow hsinks hconnects hnew hslot, ?_, ?_⟩
  · intro id hid honce
    by_cases hk : id = s.connects
    · rw [hk]
      exact fun hmem => hunnamed (List.mem_append_left _ hmem)
    · rw [Once, hslot id hk] at honce
      rw [hsinks, List.mem_append, List.mem_singleton] at hid
      exact h.live id (hid.resolve_right hk) honce
  · intro id honce
    by_cases hk : id = s.connects
    · rw [hk, List.count_eq_zero.mpr hunnamed]
      exact Nat.zero_le 1
    · rw [Once, hslot id hk] at honce
      exact h.once id honce

/-- What a new emission copies is connected, so it was not invoked; it may not be awaited. -/
theorem emit (h : Sparing s invoked awaited) (hok : ∀ id ∈ awaited, s.Once id → id ∉ s.sinks) :
    Sparing s invoked (s.sinks ++ awaited) := by
  have hnames : ∀ id ∈ invoked ++ (s.sinks ++ awaited), id ∈ s.sinks ∨ id ∈ invoked ++ awaited := by
    intro id
    simp only [List.mem_append]
    tauto
  refine ⟨h.toTidy.name hnames, h.live, ?_⟩
  intro id hid
  have hold := h.once id hid
  simp only [List.count_append] at hold ⊢
  by_cases hmem : id ∈ s.sinks
  · have hinvoked : invoked.count id = 0 := List.count_eq_zero.mpr (h.live id hmem hid)
    have hout : awaited.count id = 0 := List.count_eq_zero.mpr fun haw => hok id haw hid hmem
    have hcount := List.nodup_iff_count_le_one.mp h.nodup id
    omega
  · have hcount : s.sinks.count id = 0 := List.count_eq_zero.mpr hmem
    omega

theorem invoke {id : Nat} (h : Sparing s invoked (id :: awaited)) :
    Sparing (s.disconnectSlot id) (id :: invoked) awaited := by
  obtain ⟨-, -, hsinks⟩ := s.disconnect_spec id (s.slot id)
  have hperm : (id :: invoked ++ awaited).Perm (invoked ++ id :: awaited) := List.perm_middle.symm
  refine ⟨(h.toTidy.invoke id).name fun j hj => .inr (hperm.subset hj), ?_, ?_⟩
  · intro j hj honce
    rw [once_disconnectSlot] at honce
    rw [List.mem_cons]
    rintro (rfl | hmem)
    · exact not_mem_disconnectSlot h.nodup (h.valid j) honce hj
    · exact h.live j (hsinks.subset hj) honce hmem
  · intro j honce
    rw [once_disconnectSlot] at honce
    rw [hperm.count_eq]
    exact h.once j honce

end Sparing
end Signal

namespace Emitter

/-- The copies that the emissions under way have still to call. -/
def awaited (e : Emitter) : List Nat := e.stack.flatMap (·.rest)

/-- The event is not emitted while an emission under way has still to call a `once` listener
that is connected. -/
def Unnested (e : Emitter) : EventLabel → Prop
  | .call .emit => ∀ id ∈ e.awaited, e.signal.Once id → id ∉ e.signal.sinks
  | _ => True

instance (e : Emitter) : DecidablePred e.Unnested
  | .call .emit => inferInstanceAs (Decidable (∀ id ∈ e.awaited, e.signal.Once id → id ∉ e.signal.sinks))
  | .call .connect | .call .once | .call .offAll | .call (.disconnect _) | .next | .ret =>
    inferInstanceAs (Decidable True)

def Sparing (e : Emitter) : Prop := e.signal.Sparing e.invoked e.awaited

def Tidy (e : Emitter) : Prop := e.signal.Tidy (e.invoked ++ e.awaited)

theorem step_tidy {e f : Emitter} {a : EventLabel} (h : e.Tidy) (hf : e.step a = some f) : f.Tidy := by
  cases step_spec hf with
  | call r _ =>
      cases r with
      | connect =>
          have hnew : e.signal.slot e.signal.connects ≠ some false := by simp [h.unused.2.2]
          exact h.grow rfl rfl hnew fun _ _ => rfl
      | once => exact h.grow rfl rfl (by simp [call, Signal.once]) fun id hid => by simp [call, Signal.once, hid]
      | emit =>
          apply h.name
          intro id hid
          simp only [call, awaited, List.flatMap_cons, List.mem_append] at hid ⊢
          tauto
      | offAll => exact h.shrink rfl rfl (List.nil_sublist _)
      | disconnect id =>
          obtain ⟨hslot, hconnects, hsinks⟩ := e.signal.disconnect_spec id (e.signal.subscription id)
          exact h.shrink hslot hconnects hsinks
  | finish hs =>
      simp only [Tidy, awaited, hs] at h ⊢
      exact h
  | invoke hs =>
      simp only [Tidy, awaited, hs] at h ⊢
      exact (Signal.Tidy.invoke h _).name fun j hj => .inr (List.perm_middle.symm.subset hj)
  | ret hs =>
      simp only [Tidy, awaited, hs] at h ⊢
      exact h

theorem step_sparing {e f : Emitter} {a : EventLabel} (h : e.Sparing) (hok : e.Unnested a) (hf : e.step a = some f) :
    f.Sparing := by
  cases step_spec hf with
  | call r _ =>
      cases r with
      | connect =>
          have hnew : e.signal.slot e.signal.connects ≠ some false := by simp [h.toTidy.unused.2.2]
          exact h.grow rfl rfl hnew fun _ _ => rfl
      | once => exact h.grow rfl rfl (by simp [call, Signal.once]) fun id hid => by simp [call, Signal.once, hid]
      | emit => exact Signal.Sparing.emit h hok
      | offAll => exact h.shrink rfl rfl (List.nil_sublist _)
      | disconnect id =>
          obtain ⟨hslot, hconnects, hsinks⟩ := e.signal.disconnect_spec id (e.signal.subscription id)
          exact h.shrink hslot hconnects hsinks
  | finish hs =>
      simp only [Sparing, awaited, hs] at h ⊢
      exact h
  | invoke hs =>
      simp only [Sparing, awaited, hs] at h ⊢
      exact Signal.Sparing.invoke h
  | ret hs =>
      simp only [Sparing, awaited, hs] at h ⊢
      exact h

/-- In every run in which the event is not emitted again while an emission has still to call
a connected `once` listener, the function of each call of `once` is invoked at most once. -/
theorem once_invoked_at_most_once {as : List EventLabel} {e : Emitter} (h : run step {} as = some e)
    (hok : Along step Unnested {} as) (id : Nat) (hid : e.signal.Once id) : e.invoked.count id ≤ 1 := by
  have hstart : Sparing {} := Signal.Sparing.start
  have hsparing : e.Sparing := (throughout_of_along (fun _ _ _ => step_sparing) hstart hok).last h
  have hcount := hsparing.once id hid
  rw [List.count_append] at hcount
  omega

theorem listener_returns {rest : List Nat} {running : Bool} {outer : List EmitLoop} (e : Emitter)
    (hs : e.stack = { rest, running } :: outer) :
    ∃ as, run step e as = some { e with stack := { rest } :: outer } := by
  cases running with
  | false => exact ⟨[], by rw [run, ← hs]⟩
  | true => exact ⟨[.ret], by simp [run, step, hs]⟩

/-- An emission can be run to its end, and calls every copy. -/
theorem emission_ends {rest : List Nat} {running : Bool} {outer : List EmitLoop} (e : Emitter)
    (hs : e.stack = { rest, running } :: outer) :
    ∃ as f, run step e as = some f ∧ f.stack = outer ∧ f.invoked = rest.reverse ++ e.invoked := by
  obtain ⟨as, has⟩ := listener_returns e hs
  induction rest generalizing running e as with
  | nil => exact ⟨as ++ [.next], { e with stack := outer }, run_append has rfl, rfl, rfl⟩
  | cons id rest ih =>
      obtain ⟨bs, hbs⟩ := listener_returns { e.invoke id with stack := { rest, running := true } :: outer } rfl
      obtain ⟨cs, f, hf, hstack, hinvoked⟩ := ih _ rfl bs hbs
      refine ⟨as ++ .next :: cs, f, run_append has (run_cons.mpr ⟨_, rfl, hf⟩), hstack, ?_⟩
      rw [hinvoked, List.reverse_cons, List.append_assoc]
      rfl

theorem emissions_end {stack : List EmitLoop} (e : Emitter) (hs : e.stack = stack) :
    ∃ as f, run step e as = some f ∧ f.invoked = e.awaited.reverse ++ e.invoked := by
  induction stack generalizing e with
  | nil => exact ⟨[], e, rfl, by simp [awaited, hs]⟩
  | cons loop outer ih =>
      obtain ⟨as, f, hf, hstack, hinvoked⟩ := emission_ends e hs
      obtain ⟨bs, g, hg, hinvoked'⟩ := ih f hstack
      refine ⟨as ++ bs, g, run_append hf hg, ?_⟩
      simp [hinvoked', hinvoked, awaited, hs, hstack]

/-- Emitted against the condition, the event goes on to invoke some `once` function twice. -/
theorem nested_emit_invokes_twice {e : Emitter} (huser : e.userCode = true) (hnot : ¬ e.Unnested (.call .emit)) :
    ∃ id as f, e.signal.Once id ∧ run step e (.call .emit :: as) = some f ∧ 2 ≤ f.invoked.count id := by
  simp only [Unnested, not_forall, not_not] at hnot
  obtain ⟨id, hawaited, honce, hsink⟩ := hnot
  obtain ⟨as, f, hf, hinvoked⟩ := emissions_end (e.call .emit) rfl
  refine ⟨id, as, f, honce, run_cons.mpr ⟨_, if_pos huser, hf⟩, ?_⟩
  have hcopies : (e.call .emit).awaited = e.signal.sinks ++ e.awaited := rfl
  have hsinks := List.count_pos_iff.mpr hsink
  have hrest := List.count_pos_iff.mpr hawaited
  rw [hinvoked, hcopies, List.count_append, List.count_reverse, List.count_append]
  omega

/-- A `once` listener is followed by one that emits the event again. -/
def onceThenEmit : List EventLabel :=
  [.call .once, .call .connect, .call .emit, .next, .ret, .next, .call .emit, .next, .ret, .next, .ret, .next]

theorem onceThenEmit_once :
    ∃ e, run step {} onceThenEmit = some e ∧ e.invoked = [1, 1, 0] ∧ e.invoked.count 0 ≤ 1 := by
  obtain ⟨e, he, hfacts⟩ := Option.map_eq_some_iff.mp
    (show (run step {} onceThenEmit).map (fun e => (e.invoked, e.signal.slot 0)) = some ([1, 1, 0], some false) by
      decide +kernel)
  obtain ⟨hinvoked, hslot⟩ := Prod.mk.inj hfacts
  have honce : e.signal.Once 0 := by rw [Signal.Once, hslot]; rfl
  exact ⟨e, he, hinvoked, once_invoked_at_most_once he (by decide +kernel) 0 honce⟩

/-- A listener that emits the event again is followed by a `once` listener. -/
def emitThenOnce : List EventLabel :=
  [.call .connect, .call .once, .call .emit, .next, .call .emit, .next, .ret, .next, .ret, .next, .ret, .next]

/-- The inner emission invokes and removes it, and the outer one invokes it again. -/
theorem emitThenOnce_twice :
    ∃ e, run step {} emitThenOnce = some e ∧ e.signal.Once 1 ∧ e.invoked = [1, 1, 0, 0] ∧ e.signal.dangling = [] := by
  obtain ⟨e, he, hfacts⟩ := Option.map_eq_some_iff.mp
    (show (run step {} emitThenOnce).map (fun e => (decide (e.signal.Once 1), e.invoked, e.signal.dangling)) =
      some (true, [1, 1, 0, 0], []) by decide +kernel)
  simp only [Prod.mk.injEq, decide_eq_true_eq] at hfacts
  exact ⟨e, he, hfacts⟩

end Emitter
end CxNetworking.Core
