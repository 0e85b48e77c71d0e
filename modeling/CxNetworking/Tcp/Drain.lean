import CxNetworking.Lib.History
import CxNetworking.Tcp.Standing

/-! The drain contract of a socket that only the loop thread uses: what `write` returns, when
'drain' is emitted, and which interest is registered between callbacks. -/
namespace CxNetworking.Tcp
open CxNetworking.Core Execution

namespace Conn

def interest (c : Conn) : Option Interest := c.sock.interestIn c.loop

/-- The steps of a socket that only the loop thread uses, writability being handed to it only
while its own write interest is registered. That is more than `::poll` promises: between the
poll and the dispatch the handle may have come from another socket. -/
def OneThread (c : Conn) : ConnLabel → Prop
  | .call t _ | .ret t | .turn t _ => t = loopThread
  | .io _ r => r.writable = true → c.writeInterest = true
  | .resolved _ | .deferred => True

instance (c : Conn) (a : ConnLabel) : Decidable (c.OneThread a) :=
  match a with
  | .call _ _ | .ret _ | .turn _ _ => inferInstanceAs (Decidable (_ = _))
  | .io _ _ => inferInstanceAs (Decidable (_ → _))
  | .resolved _ | .deferred => isTrue trivial

/-- What the step decides that a `write` on an open socket returns. -/
def result (c : Conn) : ConnLabel → Option Bool
  | .turn t k =>
    match c.threads t with
    | [] => none
    | f :: _ => (c.sock.exec () t c.loop f k).bind f.result
  | .call _ _ | .ret _ | .io _ _ | .resolved _ | .deferred => none

/-- The step resumes a `write` whose `send` failed. -/
def SendFailed (c : Conn) : ConnLabel → Prop
  | .turn t _ => (c.threads t).head? = some (.relock .write)
  | .call _ _ | .ret _ | .io _ _ | .resolved _ | .deferred => False

/-- The history of a buffer: whether a returned `write` left unsent bytes, and how often
such bytes have been sent. -/
structure Backlog where
  left : Bool := false
  emptied : Nat := 0
  deriving DecidableEq, Repr

def recordBacklog (c : Conn) (a : ConnLabel) (g : Backlog) : Backlog :=
  match c.step a with
  | none => g
  | some d =>
    { left := d.sock.backlog && (g.left || c.result a == some false)
      emptied := g.emptied + if g.left && !d.sock.backlog then 1 else 0 }

structure Follows (c : Conn) (g : Backlog) : Prop where
  contract : Socket.Contract c.sock c.interest (c.threads loopThread) g.left
  counted : c.log.count (.emitted .drain) + Socket.pendingDrain (c.threads loopThread) = g.emptied

variable {c d : Conn} {a : ConnLabel} {g : Backlog}

theorem writeInterest_eq (c : Conn) : c.writeInterest = c.interest.any fun events => events.has .write := by
  simp only [writeInterest, interest, Socket.interestIn, Option.any_map]

theorem turn_spec {t : Nat} {k : Kernel} (hd : c.step (.turn t k) = some d) :
    ∃ f rest turn, c.threads t = f :: rest ∧ Socket.Executed () t c.loop c.sock f k turn ∧ d = c.apply t rest turn ∧
      c.result (.turn t k) = f.result turn := by
  simp only [step] at hd
  split at hd
  · cases hd
  · next f rest hst =>
      obtain ⟨turn, hturn, rfl⟩ := Option.map_eq_some_iff.mp hd
      exact ⟨f, rest, turn, hst, Socket.exec_spec hturn, rfl, by simp [result, hst, hturn]⟩

theorem recordBacklog_turn {t : Nat} {k : Kernel} {f : Frame} {rest : List Frame}
    {turn : Turn Unit (List SocketAddress)} (hd : c.step (.turn t k) = some (c.apply t rest turn))
    (hres : c.result (.turn t k) = f.result turn) :
    recordBacklog c (.turn t k) g =
      { left := Socket.leftAfter g.left f turn
        emptied := g.emptied + if g.left && !turn.obj.backlog then 1 else 0 } := by
  simp only [recordBacklog, hd, hres]
  rfl

theorem recordBacklog_kept (h : c.Follows g) (hd : c.step a = some d) (ha : ∀ t k, a ≠ .turn t k)
    (hsock : d.sock = c.sock) : recordBacklog c a g = g := by
  have hres : c.result a = none := by
    cases a with
    | turn t k => exact (ha t k rfl).elim
    | call | ret | io | resolved | deferred => rfl
  obtain ⟨left, emptied⟩ := g
  cases left with
  | false => simp [recordBacklog, hd, hres]
  | true => simp [recordBacklog, hd, hsock, h.contract.backlog_of_left rfl]

theorem Follows.of_entered {st : List Frame} (h : c.Follows g) (hsock : d.sock = c.sock)
    (hwatches : d.loop.watches = c.loop.watches) (hst : d.threads loopThread = st)
    (hcontract : Socket.Contract c.sock c.interest st g.left)
    (hdrains : d.log.count (.emitted .drain) = c.log.count (.emitted .drain))
    (hpending : Socket.pendingDrain st = Socket.pendingDrain (c.threads loopThread)) : d.Follows g := by
  have hinterest : d.interest = c.interest := by simp only [interest, Socket.interestIn, hsock, hwatches]
  refine ⟨?_, ?_⟩
  · rw [hsock, hinterest, hst]
    exact hcontract
  · rw [hdrains, hst, hpending]
    exact h.counted

theorem pendingDrain_inUser (hu : c.inUser loopThread = true) : Socket.pendingDrain (c.threads loopThread) = 0 := by
  refine Socket.pendingDrain_eq ?_
  intro r hr
  unfold inUser at hu
  split at hu <;> simp_all

theorem call_follows (h : c.Follows g) {call : Call} (hu : c.inUser loopThread = true)
    (hsock : d.sock = c.sock) (hloop : d.loop = c.loop) (hlog : d.log = .called call :: c.log)
    (hst : d.threads loopThread = call.frames ++ c.threads loopThread) : d.Follows g := by
  have hrest := resting_of_inUser h.contract.resting hu
  refine h.of_entered hsock (by rw [hloop]) hst ?_ (by simp [hlog]) ?_
  · cases call with
    | connect => exact h.contract
    | write | «end» | destroy => exact h.contract.enter hrest (.inl trivial) (by simp) id
  · cases call with
    | connect => rfl
    | write | «end» | destroy => exact (pendingDrain_inUser hu).symm

theorem ret_follows (h : c.Follows g) {rest : List Frame} (hst : c.threads loopThread = .user :: rest)
    (hsock : d.sock = c.sock) (hloop : d.loop = c.loop) (hlog : d.log = c.log)
    (hst' : d.threads loopThread = rest) : d.Follows g := by
  have hcontract := h.contract
  rw [hst] at hcontract
  refine h.of_entered hsock (by rw [hloop]) hst' hcontract.leave (by rw [hlog]) ?_
  rw [hst]
  refine Socket.pendingDrain_eq ?_
  intro r hr
  exact hcontract.resting (.lowerDrained r) (List.mem_of_mem_head? hr)

/-- Readiness to write is reported for write interest only, which a flushed socket has not. -/
theorem io_follows (h : c.Follows g) {r : Ready} (hok : r.writable = true → c.writeInterest = true)
    (hst : c.threads loopThread = []) (hsock : d.sock = c.sock) (hloop : d.loop = c.loop) (hlog : d.log = c.log)
    (hst' : d.threads loopThread = [.onIo r]) : d.Follows g := by
  have hcontract := h.contract
  rw [hst] at hcontract
  refine h.of_entered hsock (by rw [hloop]) hst' ?_ (by rw [hlog]) (by rw [hst]; rfl)
  refine hcontract.enter (by simp) (.inr rfl) (by simp) fun hcalm => ⟨hcalm, ?_⟩
  intro hopen hw
  by_contra hb
  have hread := hcalm.flushed hopen (by simpa using hb)
  have hwrite := hok hw
  rw [writeInterest_eq, hread] at hwrite
  cases hwrite

theorem deferred_follows (h : c.Follows g) (hst : c.threads loopThread = [])
    (loop : EventLoop Unit (List SocketAddress)) (hwatches : loop.watches = c.loop.watches) (addrs : List SocketAddress) :
    (c.apply loopThread [] (connectResolved loop c.sock addrs)).Follows g := by
  have hcontract := h.contract
  rw [hst] at hcontract
  cases addrs with
  | nil =>
      have hst' : (c.apply loopThread [] (connectResolved loop c.sock [])).threads loopThread = [.user, .closeBegin] := by
        simp [apply, connectResolved, Socket.fail, Socket.emit]
      refine h.of_entered rfl hwatches hst' ?_ (by simp [apply, connectResolved, Socket.fail, Socket.emit])
        (by rw [hst]; rfl)
      have hclose : Socket.Contract c.sock c.interest [.closeBegin] g.left :=
        hcontract.enter (by simp) (.inl trivial) (by simp) id
      exact hclose.enter (by simp [Frame.Resting]) (.inl trivial) (by simp) id
  | cons addr addrs =>
      have hst' : (c.apply loopThread [] (connectResolved loop c.sock (addr :: addrs))).threads loopThread =
          [.openSocket addr] := by
        simp [apply, connectResolved]
      refine h.of_entered rfl hwatches hst' ?_ rfl (by rw [hst]; rfl)
      exact hcontract.enter (by simp) (.inr rfl) (by simp) id

theorem turn_follows (h : c.Follows g) {k : Kernel} (hd : c.step (.turn loopThread k) = some d) :
    d.Follows (recordBacklog c (.turn loopThread k) g) := by
  obtain ⟨f, rest, turn, hst, hturn, rfl, hres⟩ := turn_spec hd
  have hcontract := h.contract
  have hbefore := h.counted
  rw [hst] at hcontract hbefore
  have hcount := hcontract.counted hturn
  rw [recordBacklog_turn hd hres]
  refine ⟨?_, ?_⟩
  · simp only [apply, Function.update_self]
    exact hcontract.executed hturn
  · simp only [apply, Function.update_self, List.count_append]
    omega

theorem step_follows (h : c.Follows g) (hok : c.OneThread a) (hd : c.step a = some d) :
    d.Follows (recordBacklog c a g) := by
  rcases step_spec hd with ⟨t, call, rfl, hu, heq⟩ | ⟨t, rest, rfl, hst, heq⟩ |
    ⟨t, k, f, rest, turn, rfl, -⟩ | ⟨fd, r, rfl, hst, -, heq⟩ | ⟨addrs, rfl, heq⟩ |
    ⟨addrs, deferred, rfl, hst, -, heq⟩
  · cases hok
    rw [recordBacklog_kept h hd nofun (by rw [heq]), heq]
    exact call_follows h hu rfl rfl rfl (by simp only [Function.update_self])
  · cases hok
    rw [recordBacklog_kept h hd nofun (by rw [heq]), heq]
    exact ret_follows h hst rfl rfl rfl (by simp only [Function.update_self])
  · cases hok
    exact turn_follows h hd
  · rw [recordBacklog_kept h hd nofun (by rw [heq]), heq]
    exact io_follows h hok hst rfl rfl rfl (by simp only [Function.update_self])
  · rw [recordBacklog_kept h hd nofun (by rw [heq]), heq]
    exact ⟨h.contract, h.counted⟩
  · rw [recordBacklog_kept h hd nofun (by rw [heq]; cases addrs <;> rfl), heq]
    exact deferred_follows h hst { c.loop with deferred } rfl addrs

theorem initial_follows (hc : Initial c) : c.Follows {} := by
  cases hc with
  | created wakeFd =>
      refine ⟨⟨nofun, nofun, nofun, ?_⟩, rfl⟩
      exact ⟨nofun, nofun, nofun, nofun, nofun⟩
  | accepted wakeFd h peer =>
      refine ⟨⟨nofun, nofun, nofun, ?_⟩, rfl⟩
      refine ⟨nofun, nofun, nofun, fun _ _ => ?_, nofun⟩
      simp [interest, Socket.interestIn, accepted, EventLoop.watches_watch]

/-- Between callbacks the interest of an open socket says whether bytes are unsent. -/
theorem Follows.interest_eq (h : c.Follows g) (hidle : c.threads loopThread = []) (hopen : c.sock.state = .open) :
    c.interest = some (if c.sock.backlog then .read ||| .write else .read) := by
  have hcalm : Socket.Calm c.sock c.interest [] g.left := by
    have hst := h.contract.standing
    rw [hidle] at hst
    exact hst
  cases hb : c.sock.backlog with
  | true => exact (hcalm.pending hopen hb).resolve_right (by simp)
  | false => exact hcalm.flushed hopen hb

theorem result_spec {f : Frame} {turn : Turn Unit (List SocketAddress)} {b : Bool} (h : f.result turn = some b) :
    f.Decides = true ∧ (b = true ∧ turn.push = [] ∨ b = false ∧ turn.push = [.raise]) := by
  unfold Frame.result at h
  split at h
  · next hf =>
      split at h
      · next hp => exact ⟨hf, .inl ⟨(Option.some.inj h).symm, hp⟩⟩
      · split at h
        · next hp => exact ⟨hf, .inr ⟨(Option.some.inj h).symm, hp⟩⟩
        · cases h
  · cases h

/-- What `write` returns says whether bytes are unsent, and is `false` after a failed
`send`. -/
theorem Follows.result_iff (h : c.Follows g) (hok : c.OneThread a) (hd : c.step a = some d) {b : Bool}
    (hres : c.result a = some b) : b = false ↔ d.sock.backlog = true ∨ c.SendFailed a ∧ d.sock.state = .closed := by
  cases a with
  | call | ret | io | resolved | deferred => cases hres
  | turn t k =>
      cases hok
      obtain ⟨f, rest, turn, hst, hturn, rfl, hturnres⟩ := turn_spec hd
      have hcontract := h.contract
      rw [hst] at hcontract
      obtain ⟨hf, ⟨rfl, hpush⟩ | ⟨rfl, hpush⟩⟩ := result_spec (hturnres.symm.trans hres)
      · obtain ⟨hb, hfailed⟩ := hcontract.through hturn hf hpush
        refine iff_of_false nofun ?_
        rintro (hback | ⟨hsend, -⟩)
        · cases hb.symm.trans hback
        · simp only [SendFailed, hst, List.head?_cons, Option.some.injEq] at hsend
          exact hfailed hsend
      · have hstanding := (hcontract.executed hturn).standing
        rw [hpush] at hstanding
        exact iff_of_true rfl (.inl hstanding.1)

/-- What a returned `write` left is sent in `on_io`, which is then about to emit 'drain'. -/
theorem Follows.emptied_in_onIo (h : c.Follows g) (hok : c.OneThread a) (hd : c.step a = some d) (hleft : g.left = true)
    (hback : d.sock.backlog = false) :
    d.sock.state = .open ∧ ∃ r k, a = .turn loopThread k ∧ c.threads loopThread = [.pump (.onIo r)] ∧
      d.threads loopThread = [.lowerDrained r] := by
  rcases step_sock hd with hsock | ⟨t, f, turn, k, rest, rfl, hst, hturn, rfl⟩
  · rw [hsock] at hback
    cases hback.symm.trans (h.contract.backlog_of_left hleft)
  · cases hok
    have hcontract := h.contract
    rw [hst] at hcontract
    obtain ⟨r, rfl, rfl, hpush, hopen⟩ := hcontract.emptied hturn hleft hback
    refine ⟨hopen, r, k, rfl, hst, ?_⟩
    simp only [apply, Function.update_self, hpush, List.append_nil]

/-- The drain contract, in every state of every run on the loop thread in which writability
is handed to the socket only under its own write interest, whatever the listeners call.
Between callbacks the interest of an open socket is `read | write` with unsent bytes and
`read` without. `write` on an open socket returns `false` exactly when bytes are unsent or
its `send` failed and closed the socket. What a returned `write` left is sent inside `on_io`
only, which then emits 'drain': there have been as many 'drain' as such occasions, but for
the one whose 'drain' is the thread's next turn. -/
theorem drain_contract {c d : Conn} (hc : Initial c) {as : List ConnLabel} (hok : Along step OneThread c as)
    (h : run step c as = some d) :
    (d.threads loopThread = [] → d.sock.state = .open →
      d.interest = some (if d.sock.backlog then .read ||| .write else .read)) ∧
    (∀ a e b, d.OneThread a → d.step a = some e → d.result a = some b →
      (b = false ↔ e.sock.backlog = true ∨ d.SendFailed a ∧ e.sock.state = .closed)) ∧
    (∀ a e, d.OneThread a → d.step a = some e → (history step recordBacklog c as {}).left = true →
      e.sock.backlog = false →
      e.sock.state = .open ∧ ∃ r k, a = .turn loopThread k ∧ d.threads loopThread = [.pump (.onIo r)] ∧
        e.threads loopThread = [.lowerDrained r]) ∧
    d.log.count (.emitted .drain) + Socket.pendingDrain (d.threads loopThread) =
      (history step recordBacklog c as {}).emptied := by
  have hd : d.Follows (history step recordBacklog c as {}) :=
    history_invariant (fun _ _ _ _ => step_follows) (initial_follows hc) hok h
  exact ⟨hd.interest_eq, fun a e b hok he hres => hd.result_iff hok he hres,
    fun a e hok he hleft hback => hd.emptied_in_onIo hok he hleft hback, hd.counted⟩

/-- A write is taken by the kernel in part, `on_io` sends the rest, and a listener of 'drain'
writes again. -/
def drainedRun : List ConnLabel :=
  [.call 0 (.write [1, 2]), .turn 0 .none, .turn 0 (.sent 1), .turn 0 (.failed .again), .turn 0 .none,
    .io 5 { writable := true }, .turn 0 .none, .turn 0 .none, .turn 0 (.sent 1), .turn 0 .none,
    .call 0 (.write [3]), .turn 0 .none, .turn 0 (.failed .again), .turn 0 .none, .ret 0, .turn 0 .none]

theorem drainedRun_contract :
    ∃ d, run step (accepted 3 5 { address := "" }) drainedRun = some d ∧
      d.interest = some (.read ||| .write) ∧ d.log.count (.emitted .drain) = 1 := by
  have hend : (run step (accepted 3 5 { address := "" }) drainedRun).map
      (fun d => (d.threads loopThread, d.sock.state, d.sock.backlog)) = some ([], .open, true) := by
    decide
  have hemptied : (history step recordBacklog (accepted 3 5 { address := "" }) drainedRun {}).emptied = 1 := by
    decide
  obtain ⟨d, hd, hend⟩ := Option.map_eq_some_iff.mp hend
  simp only [Prod.mk.injEq] at hend
  obtain ⟨hidle, hopen, hback⟩ := hend
  obtain ⟨hinterest, -, -, hcount⟩ := drain_contract (.accepted 3 5 _ rfl) (by decide) hd
  refine ⟨d, hd, ?_, ?_⟩
  · rw [hinterest hidle hopen, hback]
    rfl
  · rw [hidle, hemptied] at hcount
    exact hcount

end Conn
end CxNetworking.Tcp
