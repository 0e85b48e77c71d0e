import CxNetworking.Core.Once

/-! Erasures from the list of sinks. A `once` listener has two connections to its entry, the
wrapper's slot and the subscription that was returned, and neither is told when the entry
is removed by the other, by `off_all`, or by being called. -/
namespace CxNetworking.Core
open Execution

namespace Signal

theorem erase_dangling (s : Signal) (id : Nat) :
    (s.erase id).dangling = if id ∈ s.sinks then s.dangling else id :: s.dangling := by
  unfold erase
  split <;> rfl

theorem disconnect_sinks (s : Signal) (id : Nat) (valid : Option Bool) :
    (s.disconnect id valid).sinks = if valid = some true then s.sinks.erase id else s.sinks := by
  unfold disconnect
  split
  · exact s.erase_sinks id
  · rfl

theorem disconnect_dangling (s : Signal) (id : Nat) (valid : Option Bool) :
    (s.disconnect id valid).dangling = if valid = some true ∧ id ∉ s.sinks then id :: s.dangling else s.dangling := by
  unfold disconnect
  by_cases hvalid : valid = some true
  · simp only [hvalid, ↓reduceIte, erase_dangling, true_and]
    by_cases hid : id ∈ s.sinks <;> simp [hid]
  · simp [hvalid]

theorem disconnect_subscription (s : Signal) (id : Nat) (valid : Option Bool) :
    (s.disconnect id valid).subscription = s.subscription := by
  unfold disconnect erase
  split_ifs <;> rfl

end Signal

namespace Emitter

def erased (e : Emitter) : EventLabel → Option Nat
  | .call (.disconnect id) => if e.signal.subscription id = some true then some id else none
  | .next =>
    match e.stack with
    | { rest := id :: _, running := false } :: _ => if e.signal.slot id = some true then some id else none
    | _ => none
  | _ => none

/-- What a step does to the list: an erasure that finds its entry takes out that one and
leaves the others in order, and no other step but `off_all` takes out any. -/
def Erases (e : Emitter) (a : EventLabel) (f : Emitter) : Prop :=
  match e.erased a with
  | some id => id ∈ e.signal.sinks → ∃ before after, e.signal.sinks = before ++ id :: after ∧
      f.signal.sinks = before ++ after ∧ id ∉ before ++ after
  | none => a ≠ .call .offAll → e.signal.sinks <+: f.signal.sinks

/-- A subscription is disconnected for the first time only while its entry is in the list,
and no call removes the entry of a `once` listener that an emission has still to call. -/
def Careful (e : Emitter) : EventLabel → Prop
  | .call (.disconnect id) => e.signal.subscription id = some true → id ∈ e.signal.sinks ∧ id ∉ e.awaited
  | .call .offAll => ∀ id ∈ e.awaited, e.signal.Once id → id ∉ e.signal.sinks
  | _ => True

instance (e : Emitter) : DecidablePred e.Careful
  | .call (.disconnect id) =>
    inferInstanceAs (Decidable (e.signal.subscription id = some true → id ∈ e.signal.sinks ∧ id ∉ e.awaited))
  | .call .offAll => inferInstanceAs (Decidable (∀ id ∈ e.awaited, e.signal.Once id → id ∉ e.signal.sinks))
  | .call .connect | .call .once | .call .emit | .next | .ret => inferInstanceAs (Decidable True)

theorem erase_splits {l : List Nat} (hnodup : l.Nodup) {id : Nat} (hid : id ∈ l) :
    ∃ before after, l = before ++ id :: after ∧ l.erase id = before ++ after ∧ id ∉ before ++ after := by
  obtain ⟨before, after, hbefore, hl, herase⟩ := List.exists_erase_eq hid
  refine ⟨before, after, hl, herase, ?_⟩
  rw [← herase]
  exact hnodup.not_mem_erase

theorem step_erases {e f : Emitter} {a : EventLabel} (h : e.Tidy) (hf : e.step a = some f) : e.Erases a f := by
  cases step_spec hf with
  | call r _ =>
      cases r with
      | connect | once => exact fun _ => List.prefix_append _ _
      | emit => exact fun _ => List.prefix_rfl
      | offAll => exact fun hne => (hne rfl).elim
      | disconnect id =>
          by_cases hvalid : e.signal.subscription id = some true
          · simp only [Erases, erased, hvalid, ↓reduceIte, call, Signal.disconnectSubscription, Signal.disconnect_sinks]
            exact erase_splits h.nodup
          · simp only [Erases, erased, hvalid, ↓reduceIte, call, Signal.disconnectSubscription, Signal.disconnect_sinks]
            exact fun _ => List.prefix_rfl
  | finish hs =>
      simp only [Erases, erased, hs]
      exact fun _ => List.prefix_rfl
  | @invoke id rest outer hs =>
      by_cases hvalid : e.signal.slot id = some true
      · simp only [Erases, erased, hs, hvalid, ↓reduceIte, invoke, Signal.disconnectSlot, Signal.disconnect_sinks]
        exact erase_splits h.nodup
      · simp only [Erases, erased, hs, hvalid, ↓reduceIte, invoke, Signal.disconnectSlot, Signal.disconnect_sinks]
        exact fun _ => List.prefix_rfl
  | ret hs => exact fun _ => List.prefix_rfl

/-- Every `once` listener that is awaited and whose slot was not used is in the list, and no
erasure has failed. -/
structure Rooted (s : Signal) (awaited : List Nat) : Prop where
  listed : ∀ id ∈ awaited, s.slot id = some true → id ∈ s.sinks
  clean : s.dangling = []

/-- A careful step keeps every awaited entry in the list until it is called. -/
theorem step_rooted {e f : Emitter} {a : EventLabel} (htidy : e.Tidy) (h : Rooted e.signal e.awaited)
    (hok : e.Careful a) (hf : e.step a = some f) : Rooted f.signal f.awaited := by
  cases step_spec hf with
  | call r _ =>
      cases r with
      | connect => exact ⟨fun id hid hslot => List.mem_append_left _ (h.listed id hid hslot), h.clean⟩
      | once =>
          refine ⟨?_, h.clean⟩
          intro id hid hslot
          -- the new slot belongs to a number that no emission can have copied
          have hne : id ≠ e.signal.connects := by
            intro heq
            exact htidy.unused.2.1 (heq ▸ List.mem_append_right _ hid)
          have hold : e.signal.slot id = some true := by
            simpa only [call, Signal.once, Function.update_of_ne hne] using hslot
          exact List.mem_append_left _ (h.listed id hid hold)
      | emit =>
          refine ⟨?_, h.clean⟩
          intro id hid hslot
          have hid : id ∈ e.signal.sinks ++ e.awaited := hid
          rcases List.mem_append.mp hid with hcopied | hold
          · exact hcopied
          · exact h.listed id hold hslot
      | offAll =>
          refine ⟨?_, h.clean⟩
          intro id hid hslot
          have honce : e.signal.Once id := Option.isSome_of_eq_some hslot
          exact (hok id hid honce (h.listed id hid hslot)).elim
      | disconnect id =>
          refine ⟨?_, ?_⟩
          · intro j hj hslot
            have hslot : e.signal.slot j = some true := (e.signal.disconnect_spec id _).1 ▸ hslot
            have hmem := h.listed j hj hslot
            simp only [call, Signal.disconnectSubscription, Signal.disconnect_sinks]
            split
            · next hvalid =>
                have hne : j ≠ id := by
                  intro heq
                  exact (hok hvalid).2 (heq ▸ hj)
                exact (List.mem_erase_of_ne hne).mpr hmem
            · exact hmem
          · simp only [call, Signal.disconnectSubscription, Signal.disconnect_dangling]
            rw [if_neg]
            · exact h.clean
            · intro hbad
              exact hbad.2 (hok hbad.1).1
  | finish hs =>
      simp only [awaited, hs] at h ⊢
      exact h
  | @invoke id rest outer hs =>
      simp only [awaited, hs, List.flatMap_cons, List.cons_append] at h ⊢
      refine ⟨?_, ?_⟩
      · intro j hj hslot
        simp only [invoke, Signal.disconnectSlot, Signal.disconnect_sinks, Function.update_apply] at hslot ⊢
        by_cases heq : j = id
        · -- the slot that was just used is not valid
          simp [heq] at hslot
        · rw [if_neg heq] at hslot
          have hmem := h.listed j (List.mem_cons_of_mem id hj) hslot
          split
          · exact (List.mem_erase_of_ne heq).mpr hmem
          · exact hmem
      · simp only [invoke, Signal.disconnectSlot, Signal.disconnect_dangling]
        rw [if_neg]
        · exact h.clean
        · intro hbad
          exact hbad.2 (h.listed id List.mem_cons_self hbad.1)
  | ret hs =>
      simp only [awaited, hs] at h ⊢
      exact h

theorem start_tidy : Tidy {} := Signal.Tidy.start

theorem run_tidy {as : List EventLabel} {e : Emitter} (h : run step {} as = some e) : e.Tidy :=
  run_invariant (fun _ _ _ => step_tidy) start_tidy h

/-- In every run, an erasure that finds its entry removes the entry of its own subscription
and leaves the others in order, and no other call but `off_all` removes one. Each erasure
finds its entry if the calls are careful. -/
theorem erases_own_entry {as : List EventLabel} {e : Emitter} (h : run step {} as = some e) :
    (∀ a f, e.step a = some f → e.Erases a f) ∧ (Along step Careful {} as → e.signal.dangling = []) := by
  refine ⟨fun a f => step_erases (run_tidy h), ?_⟩
  intro hok
  have hstep : ∀ e a f, (e.Tidy ∧ Rooted e.signal e.awaited) → e.Careful a → step e a = some f →
      f.Tidy ∧ Rooted f.signal f.awaited := by
    intro e a f hi hcareful hf
    exact ⟨step_tidy hi.1 hf, step_rooted hi.1 hi.2 hcareful hf⟩
  have hstart : Tidy {} ∧ Rooted (Emitter.signal {}) (awaited {}) := ⟨start_tidy, by simp [awaited], rfl⟩
  exact ((throughout_of_along hstep hstart hok).last h).2.clean

def disconnectThenEmit : List EventLabel :=
  [.call .once, .call .once, .call .connect, .call (.disconnect 0), .call .emit, .next, .ret, .next, .ret, .next,
    .call (.disconnect 0)]

theorem disconnectThenEmit_clean :
    ∃ e, run step {} disconnectThenEmit = some e ∧ e.signal.sinks = [2] ∧ e.signal.dangling = [] := by
  obtain ⟨e, he, hsinks⟩ := Option.map_eq_some_iff.mp
    (show (run step {} disconnectThenEmit).map (fun e => e.signal.sinks) = some [2] by decide +kernel)
  exact ⟨e, he, hsinks, (erases_own_entry he).2 (by decide +kernel)⟩

/-- A `once` listener is called, and then its subscription is disconnected. -/
def emitThenDisconnect : List EventLabel := [.call .once, .call .emit, .next, .ret, .next, .call (.disconnect 0)]

/-- The entry is erased a second time. -/
theorem emitThenDisconnect_dangles :
    ∃ e, run step {} emitThenDisconnect = some e ∧ e.signal.dangling = [0] :=
  ⟨_, rfl, rfl⟩

/-! The calls that are not careful are those that can make an erasure fail. -/

/-- The subscription and the slot of an entry are made together. -/
def Paired (e : Emitter) : Prop := ∀ id, (e.signal.subscription id).isSome = (e.signal.slot id).isSome

theorem step_paired {e f : Emitter} {a : EventLabel} (h : e.Paired) (hf : e.step a = some f) : f.Paired := by
  intro j
  have hj := h j
  cases step_spec hf with
  | call r _ =>
      cases r with
      | connect | emit | offAll => exact hj
      | once =>
          simp only [call, Signal.once, Function.update_apply]
          split
          · rfl
          · exact hj
      | disconnect id =>
          simp only [call, Signal.disconnectSubscription, (e.signal.disconnect_spec id _).1, Function.update_apply]
          split
          · next heq => rw [Option.isSome_map, ← heq, hj]
          · exact hj
  | finish | ret => exact hj
  | @invoke id rest outer hs =>
      simp only [invoke, Signal.disconnectSlot, Signal.disconnect_subscription, Function.update_apply]
      split
      · next heq => rw [Option.isSome_map, ← heq, hj]
      · exact hj

/-- The entry is gone while its slot is valid, and its function was invoked `n` times. -/
structure Lost (e : Emitter) (id n : Nat) : Prop where
  valid : e.signal.slot id = some true
  gone : id ∉ e.signal.sinks
  issued : id < e.signal.connects
  count : e.invoked.count id = n

theorem step_lost {e f : Emitter} {a : EventLabel} {id n : Nat} (h : e.Lost id n) (hf : e.step a = some f) :
    f.Lost id n ∨ f.signal.dangling ≠ [] := by
  have hnew : id ≠ e.signal.connects := Nat.ne_of_lt h.issued
  cases step_spec hf with
  | call r _ =>
      left
      cases r with
      | connect =>
          have hgone : id ∉ e.signal.sinks ++ [e.signal.connects] := by simp [h.gone, hnew]
          exact ⟨h.valid, hgone, Nat.lt_succ_of_lt h.issued, h.count⟩
      | once =>
          have hgone : id ∉ e.signal.sinks ++ [e.signal.connects] := by simp [h.gone, hnew]
          refine ⟨?_, hgone, Nat.lt_succ_of_lt h.issued, h.count⟩
          simp only [call, Signal.once, Function.update_of_ne hnew, h.valid]
      | emit => exact ⟨h.valid, h.gone, h.issued, h.count⟩
      | offAll => exact ⟨h.valid, List.not_mem_nil, h.issued, h.count⟩
      | disconnect j =>
          obtain ⟨hslot, hconnects, hsinks⟩ := e.signal.disconnect_spec j (e.signal.subscription j)
          exact ⟨hslot ▸ h.valid, fun hmem => h.gone (hsinks.subset hmem), hconnects ▸ h.issued, h.count⟩
  | finish | ret => exact .inl ⟨h.valid, h.gone, h.issued, h.count⟩
  | @invoke j rest outer hs =>
      by_cases heq : j = id
      · right
        subst heq
        simp [invoke, Signal.disconnectSlot, Signal.disconnect_dangling, h.valid, h.gone]
      · left
        obtain ⟨-, hconnects, hsinks⟩ := e.signal.disconnect_spec j (e.signal.slot j)
        refine ⟨?_, fun hmem => h.gone (hsinks.subset hmem), hconnects ▸ h.issued, ?_⟩
        · simp only [invoke, Signal.disconnectSlot, Function.update_of_ne (Ne.symm heq), h.valid]
        · simp only [invoke, List.count_cons_of_ne heq, h.count]

theorem step_dangling {e f : Emitter} {a : EventLabel} (h : e.signal.dangling ≠ []) (hf : e.step a = some f) :
    f.signal.dangling ≠ [] := by
  have hdisconnect : ∀ id valid, (e.signal.disconnect id valid).dangling ≠ [] := by
    intro id valid
    rw [Signal.disconnect_dangling]
    split
    · exact List.cons_ne_nil _ _
    · exact h
  cases step_spec hf with
  | call r _ =>
      cases r with
      | connect | once | emit | offAll => exact h
      | disconnect id => exact hdisconnect id _
  | finish | ret => exact h
  | invoke => exact hdisconnect _ _

/-- When the emissions under way go on to call the wrapper of a lost entry, the erasure
fails. -/
theorem lost_entry_dangles {e : Emitter} {id : Nat} (h : e.Lost id (e.invoked.count id)) (hid : id ∈ e.awaited) :
    ∃ as f, run step e as = some f ∧ f.signal.dangling ≠ [] := by
  obtain ⟨as, f, hf, hinvoked⟩ := emissions_end e rfl
  refine ⟨as, f, hf, ?_⟩
  have hstep : ∀ d a d', (d.Lost id (e.invoked.count id) ∨ d.signal.dangling ≠ []) → step d a = some d' →
      d'.Lost id (e.invoked.count id) ∨ d'.signal.dangling ≠ [] := by
    intro d a d' hd hd'
    rcases hd with hlost | hfailed
    · exact step_lost hlost hd'
    · exact .inr (step_dangling hfailed hd')
  rcases run_invariant hstep (.inl h) hf with hlost | hfailed
  · have hcount := hlost.count
    have hpos := List.count_pos_iff.mpr hid
    rw [hinvoked, List.count_append, List.count_reverse] at hcount
    omega
  · exact hfailed

/-- After a call that is not careful, an erasure can fail. -/
theorem careless_call_dangles {as : List EventLabel} {e : Emitter} (h : run step {} as = some e) {r : EventCall}
    (huser : e.userCode = true) (hnot : ¬ e.Careful (.call r)) :
    ∃ bs f, run step e (.call r :: bs) = some f ∧ f.signal.dangling ≠ [] := by
  have hcall : e.step (.call r) = some (e.call r) := if_pos huser
  have htidy := run_tidy h
  have hissued : ∀ id ∈ e.awaited, id < e.signal.connects := fun id hid =>
    htidy.issued id (.inr (.inl (List.mem_append_right _ hid)))
  have hpaired : e.Paired := run_invariant (fun _ _ _ => step_paired) (fun _ => rfl) h
  have hslot : ∀ id ∈ e.signal.sinks, e.signal.Once id → e.signal.slot id = some true := by
    intro id hid honce
    obtain ⟨valid, hvalid⟩ := Option.isSome_iff_exists.mp honce
    cases valid with
    | true => exact hvalid
    | false => exact (htidy.valid id hid hvalid).elim
  -- once the entry is lost, the emission that awaits it is run to its end
  have hlost : ∀ id ∈ e.awaited, (e.call r).awaited = e.awaited → (e.call r).Lost id ((e.call r).invoked.count id) →
      ∃ bs f, run step e (.call r :: bs) = some f ∧ f.signal.dangling ≠ [] := by
    intro id hid hsame hl
    obtain ⟨bs, f, hf, hfailed⟩ := lost_entry_dangles hl (hsame ▸ hid)
    exact ⟨bs, f, run_cons.mpr ⟨_, hcall, hf⟩, hfailed⟩
  cases r with
  | connect | once | emit => exact (hnot trivial).elim
  | offAll =>
      simp only [Careful, not_forall, not_not] at hnot
      obtain ⟨id, hid, honce, hmem⟩ := hnot
      exact hlost id hid rfl ⟨hslot id hmem honce, List.not_mem_nil, hissued id hid, rfl⟩
  | disconnect id =>
      simp only [Careful, Classical.not_imp, not_and, not_not] at hnot
      obtain ⟨hvalid, hawaited⟩ := hnot
      by_cases hmem : id ∈ e.signal.sinks
      · have honce : e.signal.Once id := by rw [Signal.Once, ← hpaired id, hvalid]; rfl
        have hid := hawaited hmem
        obtain ⟨hsame, hconnects, -⟩ := e.signal.disconnect_spec id (e.signal.subscription id)
        have hgone : id ∉ (e.signal.disconnect id (e.signal.subscription id)).sinks := by
          rw [Signal.disconnect_sinks, if_pos hvalid]
          exact htidy.nodup.not_mem_erase
        exact hlost id hid rfl ⟨hsame ▸ hslot id hmem honce, hgone, hconnects ▸ hissued id hid, rfl⟩
      · refine ⟨[], e.call (.disconnect id), run_cons.mpr ⟨_, hcall, rfl⟩, ?_⟩
        simp [call, Signal.disconnectSubscription, Signal.disconnect_dangling, hvalid, hmem]

end Emitter
end CxNetworking.Core
