import CxNetworking.Tcp.Reconnect

/-! The half-close that `end` asks for: not before the buffer is empty, and not later than
that. `on_io` looks at `ended_` only after the listeners of 'drain', and nothing looks at it
when the socket becomes open. -/
namespace CxNetworking.Tcp
open CxNetworking.Core Execution

/-- The loop thread has found the buffer drained and has yet to look at `ended_`. -/
def Frame.Drains : Frame → Bool
  | .lowerDrained _ | .afterDrain _ => true
  | _ => false

def Frame.Writes : Frame → Bool
  | .write _ => true
  | _ => false

theorem Frame.Entry.not_drains {f : Frame} (h : f.Entry) : f.Drains = false := by
  cases f <;> first | rfl | exact h.elim

namespace Socket

variable {κ δ : Type} {self : κ} {t : Nat} {loop : EventLoop κ δ} {s : Socket} {f : Frame} {answer : Kernel}
  {turn : Turn κ δ}

/-- How a turn fills and empties the buffer. -/
structure Flushes (s : Socket) (f : Frame) (turn : Turn κ δ) : Prop where
  fills : turn.obj.backlog = true → s.backlog = true ∨ f.Writes = true
  empties : turn.obj.backlog = false → s.backlog = false ∨ f = .pump .write ∨ ∃ g ∈ turn.push, g.Drains = true
  pumping : .pump .write ∈ turn.push → s.backlog = false ∨ f = .pump .write
  draining : ∀ g ∈ turn.push, g.Drains = true → f.Drains = true ∨ turn.obj.backlog = false

theorem afterPump_flushes {k : Caller} : Flushes s f (afterPump t loop s [] k) := by
  rcases afterPump_cases t loop s k [] with
    ⟨-, hb, heq⟩ | ⟨-, hb, heq⟩ | ⟨r, -, hb, heq⟩ | ⟨r, -, hb, heq⟩ <;> rw [heq]
  · constructor <;> simp [hb, Frame.Drains]
  · constructor <;> simp [hb]
  · rcases readHalf_eq r with hr | hr <;> constructor <;> simp [hb, hr, Frame.Drains]
  · constructor <;> simp [hb, Frame.Drains]

theorem write_flushes (chunk : Bytes) : Flushes s (.write chunk) (write t loop s chunk) := by
  rcases write_cases t loop s chunk with ⟨-, heq⟩ | ⟨-, hb, heq⟩ | ⟨-, hb, heq⟩
  · rw [heq]
    constructor <;> simp [fail, emit, Frame.Writes, Frame.Drains]
  · rw [heq]
    refine ⟨by simp [Frame.Writes], ?_, by simp, by simp [Frame.Drains]⟩
    simp only [Socket.backlog, decide_eq_true_eq, decide_eq_false_iff_not, List.length_append] at hb ⊢
    omega
  · rcases pumpOutput_cases t loop { s with outbuf := s.outbuf ++ chunk } .write
      [.queued chunk] with ⟨-, hp⟩ | ⟨-, push, hp, hpush⟩
    · rw [heq, hp]
      constructor <;> simp [hb, Frame.Writes, Frame.Drains]
    · rw [heq, hp]
      simp only [true_and, reduceCtorEq, false_and, exists_false, or_false] at hpush
      subst hpush
      constructor <;> simp [hb, Frame.Writes]

theorem pump_flushes {k : Caller} (h : pump t loop s k answer = some turn) : Flushes s (.pump k) turn := by
  rcases pump_cases h with ⟨n, -, hn, rfl⟩ | rfl | rfl | ⟨e, rfl⟩
  · rcases pumpOutput_cases t loop { s with outOffset := s.outOffset + n } k
      [.took ((s.outbuf.drop s.outOffset).take n)] with ⟨hb, hp⟩ | ⟨-, push, hp, hpush⟩
    · have hb' : s.backlog = true := backlog_of_took hb
      rw [hp]
      constructor <;> simp [hb', Frame.Drains]
      · intro hempty
        cases hb.symm.trans hempty
      · exact Eq.symm
    · rw [hp]
      rcases hpush with ⟨rfl, rfl⟩ | ⟨r, rfl, rfl⟩ <;> constructor <;> simp [Socket.backlog, Frame.Drains]
  · exact afterPump_flushes
  · constructor <;> simp +contextual [Frame.Drains]
  · constructor <;> simp +contextual [fail, emit, Frame.Drains]

theorem executed_flushes (h : Executed self t loop s f answer turn) : Flushes s f turn := by
  cases h with
  | write => exact write_flushes _
  | pump _ h => exact pump_flushes h
  | relock => exact afterPump_flushes
  | @pumpOutput r =>
      rcases pumpOutput_cases t loop s (.onIo r) [] with ⟨hb, hp⟩ | ⟨hb, push, hp, hpush⟩
      · rw [hp]
        constructor <;> simp [hb, Frame.Drains]
      · rw [hp]
        rcases hpush with ⟨hk, -⟩ | ⟨r, -, rfl⟩
        · cases hk
        · constructor <;> simp [Socket.backlog, Frame.Drains]
  | recv _ h =>
      rcases recv_cases h with rfl | ⟨chunk, rfl⟩ | rfl | rfl | ⟨e, rfl⟩ <;> constructor <;>
        simp +contextual [fail, emit, Frame.Drains]
  | halfClose => constructor <;> simp +contextual [halfClose]
  | @onIo r =>
      rcases readHalf_eq r with hr | hr <;> cases hs : s.state <;> cases hw : r.writable <;> constructor <;>
        simp +contextual [Socket.onIo, hs, hw, hr, Frame.Drains]
  | @afterDrain r =>
      rcases readHalf_eq r with hr | hr <;> constructor <;> simp +contextual [afterDrain, hr, Frame.Drains]
  | afterConnect =>
      unfold afterConnect
      split <;> constructor <;> simp_all [Frame.Drains]
  | closeBegin =>
      constructor <;> simp +contextual [closeBegin, Frame.Drains]
  | refused | lowerConnected | lowerDrained | closeDesc | notOpened | blocking | unreachable =>
      constructor <;> simp +contextual [fail, emit, Frame.Drains]
  | raise | connected | setOpen | closeUnwatch | opened | nonblocking | connecting | storeConnect
    | watchConnect | dropLocal => constructor <;> simp +contextual [setOpen, storeConnect, Frame.Drains]

end Socket

namespace Conn

variable {c d : Conn} {a : ConnLabel} {g : Epoch}

/-! Not before the buffer is empty. -/

/-- While the loop thread is between the drained buffer and its look at `ended_`, `end` is
not called with unsent bytes, nor `write` on an ended socket. -/
def KeepsDrained (c : Conn) : ConnLabel → Prop
  | .turn t _ => (c.threads loopThread).any Frame.Drains = true →
      ((c.threads t).head? = some .end → c.sock.backlog = false) ∧
      ((c.threads t).head?.any Frame.Writes = true → c.sock.ended = false)
  | .call _ _ | .ret _ | .io _ _ | .resolved _ | .deferred => True

instance (c : Conn) (a : ConnLabel) : Decidable (c.KeepsDrained a) :=
  match a with
  | .turn _ _ => inferInstanceAs (Decidable (_ → (_ → _) ∧ (_ → _)))
  | .call _ _ | .ret _ | .io _ _ | .resolved _ | .deferred => isTrue trivial

/-- What the loop thread will shut down has no unsent bytes. -/
structure Drained (c : Conn) : Prop where
  layered : c.Layered
  drained : ∀ f ∈ c.threads loopThread, f.Drains = true → c.sock.ended = true → c.sock.backlog = false

theorem turn_drained (h : c.Drained) {t : Nat} {k : Kernel} {f : Frame} {rest : List Frame}
    {turn : Turn Unit (List SocketAddress)} (hok : c.KeepsDrained (.turn t k)) (hst : c.threads t = f :: rest)
    (hturn : Socket.Executed () t c.loop c.sock f k turn) {g : Frame}
    (hg : g ∈ (c.apply t rest turn).threads loopThread) (hdrains : g.Drains = true) (hended : turn.obj.ended = true) :
    turn.obj.backlog = false := by
  have hflush := Socket.executed_flushes hturn
  -- the frame was there before, or the turn leaves the buffer empty
  have hold : (∃ g ∈ c.threads loopThread, g.Drains = true) ∨ turn.obj.backlog = false := by
    rcases mem_apply hg with ⟨ht, hg⟩ | ⟨ht, hg⟩ | ⟨-, hg⟩
    · exact (hflush.draining g hg hdrains).imp_left fun hf => ⟨f, by simp [ht, hst], hf⟩
    · exact .inl ⟨g, by simp [ht, hst, hg], hdrains⟩
    · exact .inl ⟨g, hg, hdrains⟩
  rcases hold with ⟨g, hg, hdrains⟩ | hempty
  · obtain ⟨hend, hwrite⟩ := hok (List.any_eq_true.mpr ⟨g, hg, hdrains⟩)
    rw [hst] at hend hwrite
    by_contra hfull
    rcases (Socket.executed_ends hturn).ended with hsame | ⟨rfl, -⟩
    · rcases hflush.fills (by simpa using hfull) with hback | hw
      · cases hback.symm.trans (h.drained g hg hdrains (hsame ▸ hended))
      · cases hended.symm.trans (hsame.trans (hwrite hw))
    · rcases hflush.fills (by simpa using hfull) with hback | hw
      · cases hback.symm.trans (hend rfl)
      · cases hw
  · exact hempty

theorem step_drained (h : c.Drained) (hok : c.KeepsDrained a) (hd : c.step a = some d) : d.Drained := by
  refine ⟨step_layered h.layered hd, fun g hg hdrains => ?_⟩
  rcases step_kinds hd with ⟨t, f, turn, k, rest, rfl, hst, hturn, rfl⟩ | henter
  · exact turn_drained h hok hst hturn hg hdrains
  · rw [henter.sock]
    refine h.drained g ((henter.enters loopThread g hg).resolve_right fun hentry => ?_) hdrains
    simp [hentry.not_drains] at hdrains

/-- In every run in which `end` is not called with unsent bytes, nor `write` on an ended
socket, while 'drain' is being emitted, the socket is shut down only with an empty buffer. -/
theorem shutdown_drained {c d d' : Conn} (hc : Initial c) {as : List ConnLabel} (hok : Along step KeepsDrained c as)
    (hd : run step c as = some d) {a : ConnLabel} (hstep : d.step a = some d') {h : Handle}
    (hshut : d'.log = .shutdown h :: d.log) : d.sock.outbuf.length ≤ d.sock.outOffset := by
  have hstart : c.Drained := by
    refine ⟨initial_layered hc, ?_⟩
    cases hc <;> simp [create, accepted]
  have hdrained := (throughout_of_along (fun _ _ _ => step_drained) hstart hok).last hd
  have hempty : d.sock.backlog = false := by
    have hgrow := List.cons_ne_self (.shutdown h) d.log
    rcases step_spec hstep with ⟨t, call, -, -, rfl⟩ | ⟨t, rest, -, -, rfl⟩ |
      ⟨t, k, f, rest, turn, -, hst, hturn, rfl⟩ | ⟨_, r, -, -, -, rfl⟩ | ⟨addrs, -, rfl⟩ |
      ⟨addrs, deferred, -, -, -, rfl⟩
    · cases hshut
    · exact (hgrow hshut.symm).elim
    · have hnote : .shutdown h ∈ turn.notes := by
        have hsame : turn.notes ++ d.log = [.shutdown h] ++ d.log := hshut
        simp [List.append_cancel_right hsame]
      rcases ((Socket.executed_ends hturn).shutdown h hnote).2 with ⟨-, -, hempty⟩ | ⟨⟨r, rfl⟩, hended⟩
      · exact hempty
      · -- only the loop thread looks at `ended_` after 'drain'
        have ht : t = loopThread := by
          by_contra ht
          exact hdrained.layered.foreign t ht (.afterDrain r) (by simp [hst])
        exact hdrained.drained (.afterDrain r) (by simp [← ht, hst]) rfl hended
    · exact (hgrow hshut.symm).elim
    · exact (hgrow hshut.symm).elim
    · cases addrs with
      | nil => cases hshut
      | cons addr addrs => exact (hgrow hshut.symm).elim
  simpa [Socket.backlog] using hempty

def endedFull : List ConnLabel :=
  [.call 0 (.write [1, 2]), .turn 0 .none, .turn 0 (.failed .again), .turn 0 .none, .call 0 .end, .turn 0 .none,
    .io 5 { writable := true }, .turn 0 .none, .turn 0 .none, .turn 0 (.sent 2), .turn 0 .none, .ret 0]

theorem endedFull_drained :
    ∃ d d', run step (accepted 3 5 { address := "" }) endedFull = some d ∧ d.step (.turn 0 .none) = some d' ∧
      d'.log = .shutdown 5 :: d.log ∧ d.sock.outbuf.length ≤ d.sock.outOffset := by
  have hfacts : (run step (accepted 3 5 { address := "" }) endedFull).bind (fun d =>
      (d.step (.turn 0 .none)).map fun d' => decide (d'.log = .shutdown 5 :: d.log)) = some true := by
    decide
  obtain ⟨d, hd, hfacts⟩ := Option.bind_eq_some_iff.mp hfacts
  obtain ⟨d', hd', hshut⟩ := Option.map_eq_some_iff.mp hfacts
  have hshut := of_decide_eq_true hshut
  exact ⟨d, d', hd, hd', hshut, shutdown_drained (.accepted 3 5 _ rfl) (by decide) hd hd' hshut⟩

/-- A listener of 'drain' writes more than the kernel takes and ends the socket. -/
def endedInDrain : List ConnLabel :=
  [.call 0 (.write [1, 2]), .turn 0 .none, .turn 0 (.failed .again), .turn 0 .none, .io 5 { writable := true },
    .turn 0 .none, .turn 0 .none, .turn 0 (.sent 2), .turn 0 .none, .call 0 (.write [3]), .turn 0 .none,
    .turn 0 (.failed .again), .turn 0 .none, .call 0 .end, .turn 0 .none, .ret 0]

/-- The last byte is still in the buffer when the socket is shut down. -/
theorem endedInDrain_truncates :
    ∃ d d', run step (accepted 3 5 { address := "" }) endedInDrain = some d ∧ d.step (.turn 0 .none) = some d' ∧
      d'.log = .shutdown 5 :: d.log ∧ valid 5 = true ∧ d.sock.outbuf.drop d.sock.outOffset = [3] := by
  have hfacts : (run step (accepted 3 5 { address := "" }) endedInDrain).bind (fun d =>
      (d.step (.turn 0 .none)).map fun d' => (decide (d'.log = .shutdown 5 :: d.log),
        d.sock.outbuf.drop d.sock.outOffset)) = some (true, [3]) := by
    decide
  obtain ⟨d, hd, hfacts⟩ := Option.bind_eq_some_iff.mp hfacts
  obtain ⟨d', hd', hfacts⟩ := Option.map_eq_some_iff.mp hfacts
  simp only [Prod.mk.injEq, decide_eq_true_eq] at hfacts
  exact ⟨d, d', hd, hd', hfacts.1, rfl, hfacts.2⟩

/-! Not later than that. -/

/-- A socket that is ended becomes open with unsent bytes only, and no descriptor is closed
under an open socket. -/
def KeepsPromise (c : Conn) : ConnLabel → Prop
  | .turn t _ =>
    ((c.threads t).head? = some .setOpen → c.sock.ended = true → c.sock.backlog = true) ∧
    ((c.threads t).head? = some .closeDesc → c.sock.state ≠ .open)
  | .call _ _ | .ret _ | .io _ _ | .resolved _ | .deferred => True

instance (c : Conn) (a : ConnLabel) : Decidable (c.KeepsPromise a) :=
  match a with
  | .turn _ _ => inferInstanceAs (Decidable ((_ → _ → _) ∧ (_ → _)))
  | .call _ _ | .ret _ | .io _ _ | .resolved _ | .deferred => isTrue trivial

/-- Some thread's `write` is handing bytes to the kernel. -/
def Pumping (c : Conn) : Prop := ∃ t, .pump .write ∈ c.threads t

/-- The current descriptor was shut down, or the loop thread will look at `ended_`. -/
def HalfClosed (c : Conn) (g : Epoch) : Prop :=
  .shutdown c.sock.desc ∈ c.since g.stored ∨ ∃ t, ∃ f ∈ c.threads t, f.Drains = true

structure Promised (c : Conn) (g : Epoch) : Prop where
  layered : c.Layered
  stored_le : g.stored ≤ c.log.length
  called : .called .end ∈ c.log → c.sock.ended = true ∨ ∃ t, .end ∈ c.threads t
  /-- A `write` to an ended socket finds it shut down, and empties the buffer again. -/
  halfClosed : c.sock.state = .open → c.sock.ended = true → c.sock.backlog = false ∨ c.Pumping → c.HalfClosed g

theorem not_pumping (h : c.Layered) (hfree : c.sock.mutex = none) : ¬ c.Pumping := by
  rintro ⟨t, ht⟩
  cases hfree.symm.trans (h.holding t _ ht trivial)

theorem called_kept (h : .called .end ∈ c.log → c.sock.ended = true ∨ ∃ t, .end ∈ c.threads t)
    (hd : c.step a = some d) (hcalled : .called .end ∈ d.log) : d.sock.ended = true ∨ ∃ t, .end ∈ d.threads t := by
  rcases called_step hd hcalled with hold | ⟨t, rfl⟩
  · rcases h hold with hended | ⟨t, ht⟩
    · refine .inl ?_
      rcases step_sock hd with hsock | ⟨t, f, turn, k, rest, -, -, hturn, rfl⟩
      · rw [hsock, hended]
      · rcases (Socket.executed_ends hturn).ended with hsame | ⟨-, hset⟩
        · exact hsame.trans hended
        · exact hset
    · rcases step_keeps hd ht (by simp) with hkept | ⟨turn, k, rest, -, -, hturn, rfl⟩
      · exact .inr ⟨t, hkept⟩
      · cases hturn
        exact .inl rfl
  · obtain ⟨-, hd⟩ := Option.ite_none_right_eq_some.mp hd
    cases hd
    exact .inr ⟨t, by simp [Call.frames]⟩

theorem pumping_apply {t : Nat} {f : Frame} {rest : List Frame} {turn : Turn Unit (List SocketAddress)}
    (hst : c.threads t = f :: rest) (h : (c.apply t rest turn).Pumping) : c.Pumping ∨ .pump .write ∈ turn.push := by
  obtain ⟨u, hu⟩ := h
  rcases mem_apply hu with ⟨-, hu⟩ | ⟨-, hu⟩ | ⟨-, hu⟩
  · exact .inr hu
  · exact .inl ⟨t, by simp [hst, hu]⟩
  · exact .inl ⟨u, hu⟩

section Turn

variable {t : Nat} {k : Kernel} {f : Frame} {rest : List Frame} {turn : Turn Unit (List SocketAddress)}

theorem halfClosed_note (h : c.Promised g) (hdesc : turn.obj.desc = c.sock.desc)
    (hnote : .shutdown c.sock.desc ∈ turn.notes) : (c.apply t rest turn).HalfClosed g := by
  refine .inl ?_
  rw [since_append rfl h.stored_le, show (c.apply t rest turn).sock.desc = c.sock.desc from hdesc]
  exact List.mem_append_left _ hnote

theorem halfClosed_apply (h : c.Promised g) (hst : c.threads t = f :: rest) (hdesc : turn.obj.desc = c.sock.desc)
    (hf : f.Drains ≠ true) (hclosed : c.HalfClosed g) : (c.apply t rest turn).HalfClosed g := by
  rcases hclosed with hshut | ⟨u, g', hg', hdrains⟩
  · refine .inl ?_
    rw [since_append rfl h.stored_le, show (c.apply t rest turn).sock.desc = c.sock.desc from hdesc]
    exact List.mem_append_right _ hshut
  · refine .inr ⟨u, g', mem_apply_of_ne hst hg' ?_, hdrains⟩
    rintro rfl
    exact hf hdrains

theorem desc_kept (hok : c.KeepsPromise (.turn t k)) (hst : c.threads t = f :: rest)
    (hturn : Socket.Executed () t c.loop c.sock f k turn) (hopen : turn.obj.state = .open) :
    turn.obj.desc = c.sock.desc := by
  rcases Socket.executed_desc hturn with hdesc | ⟨rfl, hobj⟩ | ⟨desc, addr, -, hs⟩
  · exact hdesc
  · rw [hobj] at hopen
    exact (hok.2 (by simp [hst]) hopen).elim
  · cases hs.symm.trans hopen

theorem turn_halfClosed (h : c.Promised g) (hok : c.KeepsPromise (.turn t k)) (hst : c.threads t = f :: rest)
    (hturn : Socket.Executed () t c.loop c.sock f k turn) (hopen : turn.obj.state = .open)
    (hended : turn.obj.ended = true) (hdone : turn.obj.backlog = false ∨ (c.apply t rest turn).Pumping) :
    (c.apply t rest turn).HalfClosed g := by
  have hflush := Socket.executed_flushes hturn
  have hdesc := desc_kept hok hst hturn hopen
  have hdone := hdone.imp_right (pumping_apply hst)
  by_cases hend : f = .end
  · -- the mutex is free, so no `write` is under way
    subst hend
    cases hturn with
    | halfClose hm =>
        have hempty : c.sock.backlog = false :=
          hdone.resolve_right (by simp [not_pumping h.layered hm, Socket.halfClose])
        exact halfClosed_note h rfl (by simp [Socket.halfClose, show c.sock.state = .open from hopen, hempty])
  by_cases hset : f = .setOpen
  · subst hset
    cases hturn with
    | setOpen hm =>
        have hempty : c.sock.backlog = false :=
          hdone.resolve_right (by simp [not_pumping h.layered hm, Socket.setOpen])
        cases hempty.symm.trans (hok.1 (by simp [hst]) hended)
  by_cases hdrains : f.Drains = true
  · cases hturn with
    | afterDrain => exact halfClosed_note h rfl (by simp [Socket.afterDrain, show c.sock.ended = true from hended])
    | lowerDrained => exact .inr ⟨t, _, mem_apply_push (List.mem_cons_of_mem _ List.mem_cons_self), rfl⟩
    | _ => cases hdrains
  have hstate : c.sock.state = .open := by
    rcases (Socket.executed_affects hturn).state with hs | hs | ⟨-, hs⟩ | ⟨d, addr, -, hs⟩
    · exact hs.symm.trans hopen
    · exact (hset hs).elim
    · cases hs.symm.trans hopen
    · cases hs.symm.trans hopen
  have hsame : c.sock.ended = true := by
    rcases (Socket.executed_ends hturn).ended with hs | ⟨hs, -⟩
    · exact hs.symm.trans hended
    · exact (hend hs).elim
  have hold : f = .pump .write → c.Pumping := fun hf => ⟨t, by simp [hst, hf]⟩
  have hkept : c.sock.backlog = false ∨ c.Pumping → (c.apply t rest turn).HalfClosed g := fun hd =>
    halfClosed_apply h hst hdesc hdrains (h.halfClosed hstate hsame hd)
  rcases hdone with hempty | hpump | hpush
  · rcases hflush.empties hempty with hb | hf | ⟨g', hg', hdrains'⟩
    · exact hkept (.inl hb)
    · exact hkept (.inr (hold hf))
    · exact .inr ⟨t, g', mem_apply_push hg', hdrains'⟩
  · exact hkept (.inr hpump)
  · exact hkept ((hflush.pumping hpush).imp_right hold)

end Turn

theorem Enters.record_stored (h : c.Enters a d) : (c.record a g).stored = g.stored := by
  cases a with
  | turn t k => exact (h.label t k rfl).elim
  | call t call => cases call <;> rfl
  | ret | io | resolved | deferred => rfl

/-- Storing a descriptor leaves the socket connecting. -/
theorem record_turn {t : Nat} {k : Kernel} {f : Frame} {rest : List Frame} {turn : Turn Unit (List SocketAddress)}
    (hst : c.threads t = f :: rest) (hturn : Socket.Executed () t c.loop c.sock f k turn)
    (hopen : turn.obj.state = .open) : c.record (.turn t k) g = g := by
  simp only [record, hst, List.head?_cons, Option.any_some]
  split
  · cases hturn with
    | storeConnect => cases hopen
    | _ => simp_all [Frame.Stores]
  · rfl

theorem step_stored_le (h : g.stored ≤ c.log.length) (hd : c.step a = some d) :
    (c.record a g).stored ≤ d.log.length := by
  obtain ⟨notes, hlog⟩ := step_log hd
  have hle : c.log.length ≤ d.log.length := by rw [hlog, List.length_append]; exact Nat.le_add_left _ _
  have hrecord : (c.record a g).stored = g.stored ∨ (c.record a g).stored = c.log.length := by
    unfold record
    split
    · exact .inl rfl
    · split
      · exact .inr rfl
      · exact .inl rfl
    · exact .inl rfl
  rcases hrecord with hr | hr <;> omega

theorem step_promised (h : c.Promised g) (hok : c.KeepsPromise a) (hd : c.step a = some d) :
    d.Promised (c.record a g) := by
  refine ⟨step_layered h.layered hd, step_stored_le h.stored_le hd, called_kept h.called hd, ?_⟩
  intro hopen hended hdone
  rcases step_kinds hd with ⟨t, f, turn, k, rest, rfl, hst, hturn, rfl⟩ | henter
  · rw [record_turn hst hturn hopen]
    exact turn_halfClosed h hok hst hturn hopen hended hdone
  · rw [henter.sock] at hopen hended hdone
    have hpump : d.Pumping → c.Pumping := fun ⟨t, ht⟩ => ⟨t, (henter.enters t _ ht).resolve_right id⟩
    obtain ⟨notes, hlog⟩ := step_log hd
    rcases h.halfClosed hopen hended (hdone.imp_right hpump) with hshut | ⟨t, f, hf, hdrains⟩
    · refine .inl ?_
      rw [henter.record_stored, since_append hlog h.stored_le, henter.sock]
      exact List.mem_append_right _ hshut
    · refine .inr ⟨t, f, henter.keeps t f hf ?_, hdrains⟩
      rintro rfl
      cases hdrains

/-- In every run in which an ended socket becomes open with unsent bytes only, and no
descriptor is closed under an open socket: when no thread is inside an operation, an open
socket whose buffer is empty and on which `end` was called is half-closed. -/
theorem half_close_kept {c d : Conn} (hc : Initial c) {as : List ConnLabel} (hok : Along step KeepsPromise c as)
    (hd : run step c as = some d) (hidle : ∀ t, d.threads t = []) (hopen : d.sock.state = .open)
    (hcalled : .called .end ∈ d.log) (hempty : d.sock.outbuf.length ≤ d.sock.outOffset) :
    .shutdown d.sock.desc ∈ d.since (history step record c as {}).stored := by
  have hstart : c.Promised {} := by
    refine ⟨initial_layered hc, Nat.zero_le _, ?_, ?_⟩ <;> cases hc <;> simp [create, accepted]
  have hpromised := history_invariant (fun _ _ _ _ => step_promised) hstart hok hd
  have hended : d.sock.ended = true := (hpromised.called hcalled).resolve_right (by simp [hidle])
  refine (hpromised.halfClosed hopen hended (.inl (by simpa [Socket.backlog] using hempty))).resolve_right ?_
  simp [hidle]

theorem endedFull_half_closed :
    ∃ d, run step (accepted 3 5 { address := "" }) (endedFull ++ [.turn 0 .none]) = some d ∧ (∀ t, d.threads t = []) ∧
      d.sock.state = .open ∧ .called .end ∈ d.log ∧ d.sock.outbuf.length ≤ d.sock.outOffset ∧
      .shutdown d.sock.desc ∈
        d.since (history step record (accepted 3 5 { address := "" }) (endedFull ++ [.turn 0 .none]) {}).stored := by
  have hfacts : (run step (accepted 3 5 { address := "" }) (endedFull ++ [.turn 0 .none])).map (fun d =>
      (d.sock.state, decide (.called .end ∈ d.log), decide (d.sock.outbuf.length ≤ d.sock.outOffset))) =
      some (.open, true, true) := by
    decide
  have hidle : ∀ t, (run step (accepted 3 5 { address := "" }) (endedFull ++ [.turn 0 .none])).map (·.threads t) =
      some []
    | 0 => by decide
    | _ + 1 => rfl
  obtain ⟨d, hd, hfacts⟩ := Option.map_eq_some_iff.mp hfacts
  simp only [Prod.mk.injEq, decide_eq_true_eq] at hfacts
  obtain ⟨hopen, hcalled, hempty⟩ := hfacts
  rw [hd] at hidle
  have hidle : ∀ t, d.threads t = [] := fun t => Option.some.inj (hidle t)
  exact ⟨d, hd, hidle, hopen, hcalled, hempty,
    half_close_kept (.accepted 3 5 _ rfl) (by decide) hd hidle hopen hcalled hempty⟩

/-- `end` is called before the socket is connected. -/
def endedEarly : List ConnLabel := [.call 0 .end, .turn 0 .none] ++ dial 5

/-- The socket is open, idle and empty, and was never shut down. -/
theorem endedEarly_forgotten :
    ∃ d, run step (create 3) endedEarly = some d ∧ (∀ t, d.threads t = []) ∧ d.sock.state = .open ∧
      .called .end ∈ d.log ∧ d.sock.outbuf.length ≤ d.sock.outOffset ∧ ∀ h, .shutdown h ∉ d.log := by
  have hfacts : (run step (create 3) endedEarly).map (fun d => (d.sock.state, d.sock.outbuf, d.log)) =
      some (.open, [], [.emitted .connect, .called .connect, .called .end]) := by
    decide
  have hidle : ∀ t, (run step (create 3) endedEarly).map (·.threads t) = some []
    | 0 => by decide
    | _ + 1 => rfl
  obtain ⟨d, hd, hfacts⟩ := Option.map_eq_some_iff.mp hfacts
  simp only [Prod.mk.injEq] at hfacts
  obtain ⟨hopen, hbuf, hlog⟩ := hfacts
  rw [hd] at hidle
  exact ⟨d, hd, fun t => Option.some.inj (hidle t), hopen, by simp [hlog], by simp [hbuf], by simp [hlog]⟩

end Conn
end CxNetworking.Tcp
