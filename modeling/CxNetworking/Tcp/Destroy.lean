import CxNetworking.Lib.Execution
import CxNetworking.Tcp.Threads

/-! What `destroy` leaves behind. -/
namespace CxNetworking.Tcp
open CxNetworking.Core Execution

def Note.Lively : Note → Prop
  | .emitted .connect | .emitted (.data _) => True
  | _ => False

namespace Socket

variable {κ δ : Type} {self : κ} {t : Nat} {loop : EventLoop κ δ} {s : Socket} {f : Frame} {answer : Kernel}
  {turn : Turn κ δ}

/-- 'connect' is emitted after the interest is lowered, and 'data' for what is read from a
valid descriptor. -/
theorem executed_lively (h : Executed self t loop s f answer turn) {n : Note} (hn : n ∈ turn.notes) (hl : n.Lively) :
    f = .lowerConnected ∨ f = .recv ∧ valid s.desc = true := by
  have hone : ∀ m : Note, turn.notes = [m] → m.Lively := fun m hm => by
    rw [hm] at hn
    exact List.mem_singleton.mp hn ▸ hl
  cases h with
  | lowerConnected => exact .inl rfl
  | recv hp h =>
      refine .inr ⟨rfl, ?_⟩
      by_contra hbad
      cases hp (by simpa using hbad)
      rcases recv_cases h with rfl | ⟨chunk, rfl⟩ | rfl | rfl | ⟨e, rfl⟩
      · cases h
      · cases h
      · cases hn
      · cases hn
      · exact (hone _ rfl).elim
  | @write chunk =>
      rcases write_cases t loop s chunk with ⟨-, heq⟩ | ⟨-, -, heq⟩ | ⟨-, -, heq⟩
      · exact (hone (.emitted (.error _)) (by rw [heq]; rfl)).elim
      · exact (hone (.queued chunk) (by rw [heq])).elim
      · exact (hone (.queued chunk) (by rw [heq, pumpOutput_notes])).elim
  | pump _ h =>
      rcases pump_cases h with ⟨m, -, -, rfl⟩ | rfl | rfl | ⟨e, rfl⟩
      · exact (hone _ (pumpOutput_notes _)).elim
      · simp [afterPump_notes] at hn
      · cases hn
      · exact (hone _ rfl).elim
  | relock => simp [afterPump_notes] at hn
  | pumpOutput => simp [pumpOutput_notes] at hn
  | halfClose =>
      simp only [halfClose] at hn
      split at hn <;> simp_all [Note.Lively]
  | afterDrain =>
      simp only [afterDrain] at hn
      split at hn <;> simp_all [Note.Lively]
  | afterConnect =>
      unfold afterConnect at hn
      split at hn <;> cases hn
  | refused | lowerDrained | closeDesc | notOpened | blocking | unreachable => exact (hone _ rfl).elim
  | raise | onIo | connected | setOpen | closeBegin | closeUnwatch | opened | nonblocking | connecting | storeConnect
    | watchConnect | dropLocal => cases hn

end Socket

namespace Conn

variable {c d : Conn} {a : ConnLabel}

/-- The user does not connect again, `on_io` does not go on with a socket that was closed
under it, and no other call is in the middle of closing it. -/
def KeepsDestroyed (c : Conn) : ConnLabel → Prop
  | .call _ call => call ≠ .connect
  | .turn t _ =>
    ((c.threads t).head? = some .setOpen → c.sock.state = .connecting) ∧
    ((c.threads t).head? = some .lowerConnected → c.sock.state = .open) ∧
    ((c.threads t).head? = some .closeBegin → c.sock.state = .closed → valid c.sock.desc = false)
  | .ret _ | .io _ _ | .resolved _ | .deferred => True

instance (c : Conn) (a : ConnLabel) : Decidable (c.KeepsDestroyed a) :=
  match a with
  | .call _ _ => inferInstanceAs (Decidable (_ ≠ _))
  | .turn _ _ => inferInstanceAs (Decidable ((_ → _) ∧ (_ → _) ∧ (_ → _ → _)))
  | .ret _ | .io _ _ | .resolved _ | .deferred => isTrue trivial

theorem KeepsDestroyed.not_connect (h : c.KeepsDestroyed a) (t : Nat) : a ≠ .call t .connect := by
  rintro rfl
  exact h rfl

theorem KeepsDestroyed.setOpen (h : c.KeepsDestroyed a) (t : Nat) (k : Kernel) (ha : a = .turn t k) :
    (c.threads t).head? = some .setOpen → c.sock.state = .connecting := by
  subst ha
  exact h.1

/-- A `destroy` that thread `t` called with the frames `st`, and that may be in progress. -/
structure Destroying (t : Nat) (st : List Frame) (c : Conn) : Prop where
  noConnect : c.NoConnect
  phase : c.threads t = .closeBegin :: st ∨ c.sock.state = .closed ∧
    (valid c.sock.desc = false ∨ c.threads t = .closeUnwatch :: st ∨ c.threads t = .closeDesc :: st)

theorem step_destroying {t : Nat} {st : List Frame} (h : Destroying t st c) (hok : c.KeepsDestroyed a)
    (hd : c.step a = some d) : Destroying t st d := by
  refine ⟨step_noConnect h.noConnect hok.not_connect hd, ?_⟩
  have hkept := closed_kept h.noConnect hok.setOpen hd
  rcases h.phase with hst | ⟨hclosed, hbad | hst | hst⟩
  · rcases step_stack hd hst (by simp) with hsame | ⟨k, turn, rfl, hturn, rfl⟩
    · exact .inl hsame
    · cases hturn
      refine .inr ⟨rfl, ?_⟩
      by_cases hlive : c.sock.state ≠ .closed ∧ valid c.sock.desc = true
      · exact .inr (.inl (by simp [apply, Socket.closeBegin, hlive]))
      · refine .inl ?_
        show valid c.sock.desc = false
        by_cases hs : c.sock.state = .closed
        · exact hok.2.2 (by simp [hst]) hs
        · simpa using fun hv => hlive ⟨hs, hv⟩
  · exact .inr ⟨hkept hclosed, .inl (invalid_kept h.noConnect hd hbad)⟩
  · rcases step_stack hd hst (by simp) with hsame | ⟨k, turn, rfl, hturn, rfl⟩
    · exact .inr ⟨hkept hclosed, .inr (.inl hsame)⟩
    · cases hturn
      exact .inr ⟨hclosed, .inr (.inr (by simp [apply]))⟩
  · rcases step_stack hd hst (by simp) with hsame | ⟨k, turn, rfl, hturn, rfl⟩
    · exact .inr ⟨hkept hclosed, .inr (.inr hsame)⟩
    · cases hturn
      exact .inr ⟨hclosed, .inl rfl⟩

/-- What is logged after `log`, on a closed socket without a descriptor. -/
structure Destroyed (log : List Note) (c : Conn) : Prop where
  noConnect : c.NoConnect
  closed : c.sock.state = .closed
  invalid : valid c.sock.desc = false
  quiet : ∃ later, c.log = later ++ log ∧ ∀ n ∈ later, ¬ n.Lively

theorem step_destroyed {log : List Note} (h : Destroyed log c) (hok : c.KeepsDestroyed a) (hd : c.step a = some d) :
    Destroyed log d := by
  refine ⟨step_noConnect h.noConnect hok.not_connect hd, closed_kept h.noConnect hok.setOpen hd h.closed,
    invalid_kept h.noConnect hd h.invalid, ?_⟩
  obtain ⟨later, hlog, hquiet⟩ := h.quiet
  rcases step_spec hd with ⟨t, call, -, -, rfl⟩ | ⟨t, rest, -, -, rfl⟩ | ⟨t, k, f, rest, turn, rfl, hst, hturn, rfl⟩ |
    ⟨hd, r, -, -, -, rfl⟩ | ⟨addrs, -, rfl⟩ | ⟨addrs, deferred, -, -, hdef, -⟩
  · exact ⟨.called call :: later, by rw [hlog, List.cons_append], List.forall_mem_cons.mpr ⟨id, hquiet⟩⟩
  · exact ⟨later, hlog, hquiet⟩
  · refine ⟨turn.notes ++ later, by simp only [apply, hlog, List.append_assoc], fun n hn => ?_⟩
    rcases List.mem_append.mp hn with hn | hn
    · intro hl
      rcases Socket.executed_lively hturn hn hl with rfl | ⟨rfl, hv⟩
      · cases h.closed.symm.trans (hok.2.1 (by simp [hst]))
      · cases h.invalid.symm.trans hv
    · exact hquiet n hn
  · exact ⟨later, hlog, hquiet⟩
  · exact ⟨later, hlog, hquiet⟩
  · simp [h.noConnect.deferred] at hdef

/-- Once a `destroy` has returned that was called with no `connect` under way, the socket
stays closed and without a descriptor, and emits neither 'connect' nor 'data', as long as
`connect` is not called and no other call is caught in the middle of opening or closing. -/
theorem destroy_is_final {c c₁ c₂ d : Conn} {t : Nat} {as bs : List ConnLabel} (hidle : c.NoConnect)
    (hcall : c.step (.call t .destroy) = some c₁) (hrun : run step c₁ as = some c₂)
    (hreturned : c₂.threads t = c.threads t) (hd : run step c₂ bs = some d)
    (hduring : Along step KeepsDestroyed c₁ as) (hafter : Along step KeepsDestroyed c₂ bs) :
    d.sock.state = .closed ∧ valid d.sock.desc = false ∧
      ∃ later, d.log = later ++ c₂.log ∧ ∀ n ∈ later, ¬ n.Lively := by
  have hstart : Destroying t (c.threads t) c₁ := by
    refine ⟨step_noConnect hidle (by simp) hcall, .inl ?_⟩
    obtain ⟨-, hcall⟩ := Option.ite_none_right_eq_some.mp hcall
    cases hcall
    exact Function.update_self _ _ _
  have hmid := (throughout_of_along (fun _ _ _ => step_destroying) hstart hduring).last hrun
  have hclosed : c₂.sock.state = .closed ∧ valid c₂.sock.desc = false := by
    have hne : ∀ f, c₂.threads t ≠ f :: c.threads t := fun f hst =>
      List.cons_ne_self f _ (hst.symm.trans hreturned)
    rcases hmid.phase with hst | ⟨hs, hv | hst | hst⟩
    · exact (hne _ hst).elim
    · exact ⟨hs, hv⟩
    · exact (hne _ hst).elim
    · exact (hne _ hst).elim
  have hreached : Destroyed c₂.log c₂ := ⟨hmid.noConnect, hclosed.1, hclosed.2, [], rfl, by simp⟩
  have hend := (throughout_of_along (fun _ _ _ => step_destroyed) hreached hafter).last hd
  exact ⟨hend.closed, hend.invalid, hend.quiet⟩

/-- A listener of 'data' is about to call `destroy`. -/
def inListener : List ConnLabel := [.io 5 { readable := true }, .turn 0 .none, .turn 0 (.got [1])]

def tornDown : List ConnLabel := [.turn 0 .none, .turn 0 .none, .turn 0 .none, .ret 0]

/-- The read half goes on and fails. -/
def readLate : List ConnLabel := [.ret 0, .turn 0 (.failed .badFileDescriptor), .ret 0, .turn 0 .none]

theorem readLate_stays_closed :
    ∃ c c₁ c₂ d, run step (accepted 3 5 { address := "" }) inListener = some c ∧
      c.step (.call 0 .destroy) = some c₁ ∧ run step c₁ tornDown = some c₂ ∧ c₂.threads 0 = c.threads 0 ∧
      run step c₂ readLate = some d ∧ d.sock.state = .closed ∧ valid d.sock.desc = false ∧
      ∃ later, d.log = later ++ c₂.log ∧ ∀ n ∈ later, ¬ n.Lively := by
  have hfacts : (run step (accepted 3 5 { address := "" }) inListener).bind (fun c =>
      (c.step (.call 0 .destroy)).bind fun c₁ => (run step c₁ tornDown).bind fun c₂ =>
        (run step c₂ readLate).map fun _ => (decide (c.resolving = 0 ∧ c.loop.deferred = []), c.threads 0, c₂.threads 0,
          decide (Along step KeepsDestroyed c₁ tornDown ∧ Along step KeepsDestroyed c₂ readLate))) =
      some (true, [.user, .recv], [.user, .recv], true) := by
    decide
  have hothers : ∀ t, (run step (accepted 3 5 { address := "" }) inListener).map (·.threads (t + 1)) = some [] :=
    fun _ => rfl
  obtain ⟨c, hc, hfacts⟩ := Option.bind_eq_some_iff.mp hfacts
  obtain ⟨c₁, h₁, hfacts⟩ := Option.bind_eq_some_iff.mp hfacts
  obtain ⟨c₂, h₂, hfacts⟩ := Option.bind_eq_some_iff.mp hfacts
  obtain ⟨d, hd, hfacts⟩ := Option.map_eq_some_iff.mp hfacts
  simp only [Prod.mk.injEq, decide_eq_true_eq] at hfacts
  obtain ⟨⟨hresolving, hdeferred⟩, hthread, hreturned, hduring, hafter⟩ := hfacts
  have hidle : c.NoConnect := by
    refine ⟨hresolving, hdeferred, fun t => ?_⟩
    cases t with
    | zero => simp [hthread, Frame.Starting]
    | succ t =>
        have hother := hothers t
        rw [hc] at hother
        simp [Option.some.inj hother]
  have hsame := hreturned.trans hthread.symm
  exact ⟨c, c₁, c₂, d, hc, h₁, h₂, hsame, hd, destroy_is_final hidle h₁ h₂ hsame hd hduring hafter⟩

/-- The name is resolved after `destroy` has returned. -/
def resolvedLate : List ConnLabel :=
  [.resolved [{ address := "10.0.0.1", port := 80 }], .deferred, .turn 0 (.opened 5), .turn 0 (.status .success),
    .turn 0 (.status .inProgress), .turn 0 .none, .turn 0 .none, .io 5 { writable := true }, .turn 0 .none,
    .turn 0 (.status .success), .turn 0 .none, .turn 0 .none]

/-- The destroyed socket connects. -/
theorem resolvedLate_reopens :
    ∃ c c₁ c₂ d, run step (create 3) [.call 0 .connect] = some c ∧ c.step (.call 0 .destroy) = some c₁ ∧
      run step c₁ [.turn 0 .none] = some c₂ ∧ c₂.threads 0 = c.threads 0 ∧ run step c₂ resolvedLate = some d ∧
      d.sock.state = .open ∧ valid d.sock.desc = true ∧ d.log = .emitted .connect :: c₂.log := by
  have hfacts : (run step (create 3) [.call 0 .connect]).bind (fun c =>
      (c.step (.call 0 .destroy)).bind fun c₁ => (run step c₁ [.turn 0 .none]).bind fun c₂ =>
        (run step c₂ resolvedLate).map fun d => (decide (c₂.threads 0 = c.threads 0), d.sock.state, valid d.sock.desc,
          decide (d.log = .emitted .connect :: c₂.log))) = some (true, .open, true, true) := by
    decide
  obtain ⟨c, hc, hfacts⟩ := Option.bind_eq_some_iff.mp hfacts
  obtain ⟨c₁, h₁, hfacts⟩ := Option.bind_eq_some_iff.mp hfacts
  obtain ⟨c₂, h₂, hfacts⟩ := Option.bind_eq_some_iff.mp hfacts
  obtain ⟨d, hd, hfacts⟩ := Option.map_eq_some_iff.mp hfacts
  simp only [Prod.mk.injEq, decide_eq_true_eq] at hfacts
  exact ⟨c, c₁, c₂, d, hc, h₁, h₂, hfacts.1, hd, hfacts.2⟩

end Conn
end CxNetworking.Tcp
