import CxNetworking.Tcp.HalfClose
import CxNetworking.Tcp.Link

/-! The echo server of the examples and the benchmarks: its only listener writes each chunk
back to the socket it came from. The far side of a connection is such a server; the near
side is a client of any kind. -/
namespace CxNetworking.Tcp
open CxNetworking.Core Execution

namespace Conn

/-- The calls of the server's code, when its listener owes a chunk: the listener writes the
chunk back and returns. -/
def echoCalls (owed : Option Bytes) : ConnLabel → Bool
  | .call t call => t == loopThread && owed.any fun chunk => call == .write chunk
  | .ret _ => owed.isNone
  | _ => true

/-- What the listener owes after a step. -/
def echoOwes (c : Conn) (owed : Option Bytes) : ConnLabel → Option Bytes
  | .call _ _ => none
  | a =>
    match c.receives a with
    | some (b :: chunk) => some (b :: chunk)
    | _ => owed

end Conn

/-- A connection to an echo server; `owed` is the chunk that the listener of 'data' was
called with and has not yet written back. -/
structure EchoLink where
  link : Link
  owed : Option Bytes := none

def EchoLink.step (e : EchoLink) : Side × ConnLabel → Option EchoLink
  | (.near, a) => (e.link.step (.near, a)).map fun link => { e with link }
  | (.far, a) =>
    if Conn.echoCalls e.owed a then
      (e.link.step (.far, a)).map fun link => { link, owed := e.link.far.echoOwes e.owed a }
    else none

namespace Socket

variable {κ δ : Type} {self : κ} {t : Nat} {loop : EventLoop κ δ} {s : Socket} {f : Frame} {answer : Kernel}
  {turn : Turn κ δ}

theorem readHalf_writes (r : Ready) : ∀ g ∈ readHalf r, g.Writes = false := by
  rcases readHalf_eq r with hr | hr <;> rw [hr] <;> simp [Frame.Writes]

theorem afterPump_writes {k : Caller} {notes : List Note} :
    ∀ g ∈ (afterPump t loop s notes k).push, g.Writes = false := by
  rcases afterPump_cases t loop s k notes with
    ⟨-, -, heq⟩ | ⟨-, -, heq⟩ | ⟨r, -, -, heq⟩ | ⟨r, -, -, heq⟩ <;> rw [heq]
  · simp [Frame.Writes]
  · simp
  · exact readHalf_writes r
  · simp [Frame.Writes]

theorem pumpOutput_writes {k : Caller} {notes : List Note} :
    ∀ g ∈ (pumpOutput t loop s notes k).push, g.Writes = false := by
  unfold pumpOutput
  split
  · simp [Frame.Writes]
  · exact afterPump_writes

theorem executed_writes (h : Executed self t loop s f answer turn) : ∀ g ∈ turn.push, g.Writes = false := by
  cases h with
  | @write chunk =>
      rcases write_cases t loop s chunk with ⟨-, heq⟩ | ⟨-, -, heq⟩ | ⟨-, -, heq⟩ <;> rw [heq]
      · simp [fail, emit, Frame.Writes]
      · simp [Frame.Writes]
      · exact pumpOutput_writes
  | pump _ h =>
      rcases pump_cases h with ⟨n, -, -, rfl⟩ | rfl | rfl | ⟨e, rfl⟩
      · exact pumpOutput_writes
      · exact afterPump_writes
      · simp [Frame.Writes]
      · simp [fail, emit, Frame.Writes]
  | relock => exact afterPump_writes
  | pumpOutput => exact pumpOutput_writes
  | recv _ h =>
      rcases recv_cases h with rfl | ⟨chunk, rfl⟩ | rfl | rfl | ⟨e, rfl⟩ <;> simp [fail, emit, Frame.Writes]
  | @onIo r =>
      simp only [Socket.onIo]
      split
      · simp [Frame.Writes]
      · split
        · simp [Frame.Writes]
        · exact readHalf_writes r
      · simp
      · simp
  | afterDrain => exact readHalf_writes _
  | afterConnect =>
      unfold afterConnect
      split <;> simp [Frame.Writes]
  | closeBegin =>
      simp only [closeBegin]
      split <;> simp [Frame.Writes]
  | raise | halfClose | connected | refused | setOpen | lowerConnected | lowerDrained | closeUnwatch | closeDesc
    | notOpened | opened | nonblocking | blocking | connecting | unreachable | storeConnect | watchConnect | dropLocal =>
      simp [fail, emit, setOpen, halfClose, storeConnect, Frame.Writes]

theorem receives_eq_some {k : Kernel} {chunk : Bytes} (h : receives f k = some chunk) :
    f = .recv ∧ k = .got chunk := by
  rw [receives.eq_def] at h
  split at h
  next => cases h; exact ⟨rfl, rfl⟩
  next => cases h

end Socket

namespace Conn

def writing (c : Conn) : Bytes :=
  match c.threads loopThread with
  | .write chunk :: _ => chunk
  | _ => []

/-- The frames between the state `closed` and the closed descriptor. -/
def Closes (c : Conn) : Prop :=
  (c.threads loopThread).head? = some .closeUnwatch ∨ (c.threads loopThread).head? = some .closeDesc

/-- The server's socket: what it has written back, is about to write and still owes is what
it has received. All of it happens on the loop thread, and a chunk comes from an open
socket. -/
structure Echoes (c : Conn) (owed : Option Bytes) : Prop where
  settled : c.NoConnect
  layered : c.Layered
  single : ∀ t, t ≠ loopThread → c.threads t = []
  state : c.sock.state = .open ∨ c.sock.state = .closed
  closed : c.sock.state = .closed → valid c.sock.desc = false ∨ c.Closes
  owing : owed ≠ none → c.sock.state = .open ∧ (c.threads loopThread).head? = some .user
  writing : (c.threads loopThread).head?.any Frame.Writes = true → c.sock.state = .open
  echoed : written c.log ++ c.writing ++ owed.getD [] = received c.log

variable {c d : Conn} {a : ConnLabel} {owed : Option Bytes}

theorem writing_eq_nil (h : (c.threads loopThread).head?.any Frame.Writes = false) : c.writing = [] := by
  rw [writing]
  split
  next hst => rw [hst] at h; cases h
  next => rfl

theorem accepted_echoes (wakeFd h : Handle) (peer : SocketAddress) (hv : valid h = true) :
    Echoes (accepted wakeFd h peer) none where
  settled := (accepted_established wakeFd h peer).settled
  layered := initial_layered (.accepted wakeFd h peer hv)
  single _ _ := rfl
  state := .inl rfl
  closed := nofun
  owing h := absurd rfl h
  writing := nofun
  echoed := rfl

theorem Frame.Resting.not_writes {f : Frame} (h : f.Resting) : f.Writes = false := by
  cases f <;> first | rfl | exact h.elim

theorem head_writes {t : Nat} {f : Frame} {rest : List Frame} {k : Kernel} {turn : Turn Unit (List SocketAddress)}
    (hrest : ∀ g ∈ rest, g.Resting) (h : Socket.Executed () t c.loop c.sock f k turn) :
    (turn.push ++ rest).head?.any Frame.Writes = false := by
  cases hp : turn.push with
  | nil =>
      cases hr : rest with
      | nil => rfl
      | cons g st => exact Frame.Resting.not_writes (hrest g (hr ▸ List.mem_cons_self))
  | cons g st => exact Socket.executed_writes h g (hp ▸ List.mem_cons_self)

theorem Echoes.turn_closed {f : Frame} {rest : List Frame} {k : Kernel} {turn : Turn Unit (List SocketAddress)}
    (hc : c.Echoes owed) (hst : c.threads loopThread = f :: rest)
    (h : Socket.Executed () loopThread c.loop c.sock f k turn)
    (hclosed : turn.obj.state = .closed) :
    valid turn.obj.desc = false ∨ (turn.push ++ rest).head? = some .closeUnwatch ∨
      (turn.push ++ rest).head? = some .closeDesc := by
  have hold : c.sock.state = .closed → f ≠ .closeUnwatch → f ≠ .closeDesc → valid c.sock.desc = false := by
    intro hs hu hd
    rcases hc.closed hs with hv | hcl
    · exact hv
    · rw [Closes, hst] at hcl
      rcases hcl with hcl | hcl
      · exact absurd (Option.some.inj hcl) hu
      · exact absurd (Option.some.inj hcl) hd
  have hstart : ¬ f.Starting := hc.settled.starting loopThread f (by simp [hst])
  rcases (Socket.executed_affects h).state with hs | rfl | ⟨rfl, -⟩ | ⟨desc, addr, rfl, -⟩
  · by_cases hu : f = .closeUnwatch
    · subst hu
      cases h
      exact .inr (.inr rfl)
    by_cases hd : f = .closeDesc
    · subst hd
      cases h
      exact .inl rfl
    have hv := hold (hs ▸ hclosed) hu hd
    rcases Socket.executed_desc h with hdesc | ⟨rfl, -⟩ | ⟨desc, addr, rfl, -⟩
    · exact .inl (by rw [hdesc, hv])
    · exact absurd rfl hd
    · exact absurd trivial hstart
  · cases h
    cases hclosed
  · cases h
    by_cases hg : c.sock.state ≠ .closed ∧ valid c.sock.desc = true
    · exact .inr (.inl (by simp [Socket.closeBegin, hg]))
    · left
      change valid c.sock.desc = false
      by_contra hv
      exact hg ⟨fun hs => hv (hold hs (by simp) (by simp)), by simpa using hv⟩
  · exact absurd trivial hstart

/-- A listener comes to owe a chunk when the kernel hands one over. -/
theorem echoOwes_turn {t : Nat} {k : Kernel} (h : c.echoOwes none (.turn t k) ≠ none) :
    ∃ b chunk, c.receives (.turn t k) = some (b :: chunk) := by
  simp only [echoOwes] at h
  split at h
  next b chunk hr => exact ⟨b, chunk, hr⟩
  next => exact absurd rfl h

theorem Echoes.step_turn {t : Nat} {k : Kernel} {f : Frame} {rest : List Frame} {turn : Turn Unit (List SocketAddress)}
    (hc : c.Echoes owed) (hst : c.threads t = f :: rest) (hturn : Socket.Executed () t c.loop c.sock f k turn)
    (hd : c.step (.turn t k) = some (c.apply t rest turn)) :
    (c.apply t rest turn).Echoes (c.echoOwes owed (.turn t k)) := by
  obtain rfl : t = loopThread := by
    by_contra hne
    rw [hc.single t hne] at hst
    cases hst
  -- A listener that owes a chunk is user code, which takes no turn.
  obtain rfl : owed = none := by
    by_contra hne
    have huser := (hc.owing hne).2
    rw [hst] at huser
    cases Option.some.inj huser
    cases hturn
  have ht := step_transfers hd
  have hhead : (c.threads loopThread).head? = some f := by rw [hst, List.head?_cons]
  have hrest : ∀ g ∈ rest, g.Resting := fun g hg => hc.layered.resting loopThread g (by rw [hst]; exact hg)
  have hstack : (c.apply loopThread rest turn).threads loopThread = turn.push ++ rest := by
    simp only [apply, Function.update_self]
  have hnowrite : ((c.apply loopThread rest turn).threads loopThread).head?.any Frame.Writes = false := by
    rw [hstack]
    exact head_writes hrest hturn
  refine ⟨step_noConnect hc.settled (by simp) hd, step_layered hc.layered hd, ?_, ?_, ?_, ?_, ?_, ?_⟩
  · intro u hu
    exact (Function.update_of_ne hu _ _).trans (hc.single u hu)
  · rcases (Socket.executed_affects hturn).state with hs | rfl | ⟨-, hs⟩ | ⟨desc, addr, rfl, -⟩
    · exact hs ▸ hc.state
    · cases hturn
      exact .inl rfl
    · exact .inr hs
    · exact (hc.settled.starting loopThread (.storeConnect desc addr) (by simp [hst]) trivial).elim
  · intro hcl
    rw [Closes, hstack]
    exact hc.turn_closed hst hturn hcl
  · intro hne
    obtain ⟨b, chunk, hr⟩ := echoOwes_turn hne
    have hr' : Socket.receives f k = some (b :: chunk) := by simpa [receives, hhead] using hr
    obtain ⟨rfl, rfl⟩ := Socket.receives_eq_some hr'
    cases hturn with
    | recv hp hrecv =>
        cases hrecv
        refine ⟨?_, by rw [hstack]; rfl⟩
        -- The descriptor is valid, and the loop thread is not closing it.
        rcases hc.state with ho | hcl
        · exact ho
        rcases hc.closed hcl with hv | hcl
        · cases hp hv
        · rw [Closes, hhead] at hcl
          rcases hcl with hcl | hcl <;> cases hcl
  · intro hw
    rw [hnowrite] at hw
    cases hw
  · have howes : (c.echoOwes none (.turn loopThread k)).getD [] = (c.receives (.turn loopThread k)).getD [] := by
      simp only [echoOwes]
      split
      next hr => rw [hr]
      next hne =>
        cases hr : c.receives (.turn loopThread k) with
        | none => rfl
        | some chunk =>
            cases chunk with
            | nil => rfl
            | cons b chunk => exact absurd hr (hne b chunk)
    have haccepts : c.accepts (.turn loopThread k) = c.writing := by
      simp only [accepts, Conn.writing, hst]
      cases f with
      | write chunk => exact if_pos (hc.writing (by rw [hhead]; rfl))
      | _ => rfl
    rw [ht.written, ht.received, writing_eq_nil hnowrite, howes, haccepts, List.append_nil, ← hc.echoed]
    simp

theorem Echoes.step_call {t : Nat} {call : Call} (hc : c.Echoes owed) (ha : echoCalls owed (.call t call) = true)
    (hd : c.step (.call t call) = some d) : d.Echoes none := by
  obtain ⟨hl, ho⟩ := Bool.and_eq_true_iff.mp ha
  obtain rfl : t = loopThread := beq_iff_eq.mp hl
  obtain ⟨chunk, rfl, hcall⟩ := Option.any_eq_true .. |>.mp ho
  obtain rfl : call = .write chunk := beq_iff_eq.mp hcall
  obtain ⟨hopen, huser⟩ := hc.owing nofun
  obtain ⟨rest, hst⟩ := List.head?_eq_some_iff.mp huser
  have hsettled := step_noConnect hc.settled (by simp) hd
  have hlayered := step_layered hc.layered hd
  obtain ⟨-, h⟩ := Option.ite_none_right_eq_some.mp hd
  cases h
  refine ⟨hsettled, hlayered, ?_, .inl hopen, ?_, fun hne => absurd rfl hne, fun _ => hopen, ?_⟩
  · exact fun u hu => (Function.update_of_ne hu _ _).trans (hc.single u hu)
  · intro hcl
    rw [show c.sock.state = _ from hcl] at hopen
    cases hopen
  · have hold := hc.echoed
    have hw : c.writing = [] := writing_eq_nil (by rw [huser]; rfl)
    rw [hw] at hold
    simpa [Conn.writing, Call.frames, written, received] using hold

theorem Echoes.step_ret {t : Nat} (hc : c.Echoes none) (hd : c.step (.ret t) = some d) : d.Echoes none := by
  have hsettled := step_noConnect hc.settled (by simp) hd
  have hlayered := step_layered hc.layered hd
  rw [step] at hd
  split at hd
  next rest hst =>
    cases hd
    obtain rfl : t = loopThread := by
      by_contra hne
      rw [hc.single t hne] at hst
      cases hst
    have hhead : (c.threads loopThread).head? = some .user := by rw [hst, List.head?_cons]
    have hstack : Function.update c.threads loopThread rest loopThread = rest := Function.update_self ..
    have hnowrite : (Function.update c.threads loopThread rest loopThread).head?.any Frame.Writes = false := by
      rw [hstack]
      cases hr : rest with
      | nil => rfl
      | cons g st =>
          have hg : g ∈ (c.threads loopThread).tail := by rw [hst, hr]; exact List.mem_cons_self
          exact Frame.Resting.not_writes (hc.layered.resting loopThread g hg)
    refine ⟨hsettled, hlayered, ?_, hc.state, ?_, fun hne => absurd rfl hne, ?_, ?_⟩
    · exact fun u hu => (Function.update_of_ne hu _ _).trans (hc.single u hu)
    · intro hcl
      rcases hc.closed hcl with hv | hcl
      · exact .inl hv
      · rw [Closes, hhead] at hcl
        rcases hcl with hcl | hcl <;> cases hcl
    · intro hw
      rw [show _ = false from hnowrite] at hw
      cases hw
    · have hold := hc.echoed
      rw [writing_eq_nil (by rw [hhead]; rfl)] at hold
      rw [writing_eq_nil (c := { c with threads := _ }) hnowrite]
      exact hold
  next => cases hd

theorem Echoes.step_io {h : Handle} {r : Ready} (hc : c.Echoes owed) (hd : c.step (.io h r) = some d) : d.Echoes owed := by
  have hsettled := step_noConnect hc.settled (by simp) hd
  have hlayered := step_layered hc.layered hd
  obtain ⟨⟨hst, -⟩, h⟩ := Option.ite_none_right_eq_some.mp hd
  cases h
  have howed : owed = none := by
    by_contra hne
    have := (hc.owing hne).2
    rw [hst] at this
    cases this
  have hstack : Function.update c.threads loopThread [.onIo r] loopThread = [.onIo r] := Function.update_self ..
  refine ⟨hsettled, hlayered, ?_, hc.state, ?_, fun hne => absurd howed hne, ?_, ?_⟩
  · exact fun u hu => (Function.update_of_ne hu _ _).trans (hc.single u hu)
  · intro hcl
    rcases hc.closed hcl with hv | hcl
    · exact .inl hv
    · rw [Closes, hst] at hcl
      rcases hcl with hcl | hcl <;> cases hcl
  · intro hw
    simp only [hstack] at hw
    cases hw
  · have hold := hc.echoed
    have hw : c.writing = [] := by rw [Conn.writing, hst]
    rw [hw] at hold
    simpa [Conn.writing] using hold

theorem step_echoes (hc : c.Echoes owed) (ha : echoCalls owed a = true) (hd : c.step a = some d) :
    d.Echoes (c.echoOwes owed a) := by
  cases a with
  | call t call => exact hc.step_call ha hd
  | ret t =>
      obtain rfl : owed = none := Option.isNone_iff_eq_none.mp ha
      exact hc.step_ret hd
  | turn t k =>
      rcases step_spec hd with ⟨_, _, h, -⟩ | ⟨_, _, h, -⟩ | ⟨u, k, f, rest, turn, h, hst, hturn, rfl⟩ |
        ⟨_, _, h, -⟩ | ⟨_, h, -⟩ | ⟨_, _, h, -⟩ <;> cases h
      exact hc.step_turn hst hturn hd
  | io h r => exact hc.step_io hd
  | resolved addrs =>
      rw [step, hc.settled.resolving] at hd
      cases hd
  | deferred =>
      rw [step, hc.settled.deferred] at hd
      split at hd <;> simp_all

end Conn

namespace EchoLink

variable {e e' : EchoLink}

structure Sound (e : EchoLink) : Prop where
  intact : e.link.Intact
  echoes : e.link.far.Echoes e.owed

theorem step_sound {b : Side × ConnLabel} (he : e.Sound) (h : e.step b = some e') : e'.Sound := by
  match b with
  | (.near, a) =>
      obtain ⟨link, hlink, rfl⟩ := Option.map_eq_some_iff.mp h
      refine ⟨Link.step_intact he.intact hlink, ?_⟩
      obtain ⟨-, -, -, near, -, rfl⟩ := Link.move_spec hlink
      exact he.echoes
  | (.far, a) =>
      obtain ⟨ha, h⟩ := Option.ite_none_right_eq_some.mp h
      obtain ⟨link, hlink, rfl⟩ := Option.map_eq_some_iff.mp h
      refine ⟨Link.step_intact he.intact hlink, ?_⟩
      obtain ⟨m, hm, rfl⟩ := Option.map_eq_some_iff.mp hlink
      obtain ⟨-, -, -, far, hfar, rfl⟩ := Link.move_spec hm
      exact Conn.step_echoes he.echoes ha hfar

/-- The echo, end to end. In every run of a client against the echo server, what the client
has got back, followed by what is under way to it, buffered at the server, owed by the
server's listener, under way to the server and buffered at the client, is what the client
has written, in order. -/
theorem echo_conserves {near : Conn} {wakeFd h : Handle} {peer : SocketAddress} {as : List (Side × ConnLabel)}
    (hn : near.Established) (hv : valid h = true)
    (hrun : run step { link := { near, far := .accepted wakeFd h peer } } as = some e) :
    received e.link.near.log ++ e.link.back ++ e.link.far.sock.outbuf.drop e.link.far.sock.outOffset ++
        (e.link.far.writing ++ e.owed.getD []) ++ e.link.out ++
        e.link.near.sock.outbuf.drop e.link.near.sock.outOffset = written e.link.near.log := by
  have hfar := Conn.accepted_established wakeFd h peer
  have hstart : Sound { link := { near, far := .accepted wakeFd h peer } } :=
    ⟨⟨Link.established_carries hn hfar, Link.established_carries hfar hn⟩, Conn.accepted_echoes wakeFd h peer hv⟩
  have he : e.Sound := run_invariant (fun _ _ _ hi hs => step_sound hi hs) hstart hrun
  rw [he.intact.2.whole, ← List.append_assoc, he.echoes.echoed, he.intact.1.whole]

/-- Two bytes are echoed, the first of them on its own; the second is still at the server. -/
def helloRun : List (Side × ConnLabel) :=
  [(.near, .call 1 (.write [104, 105])), (.near, .turn 1 .none), (.near, .turn 1 (.sent 2)),
    (.far, .io 6 { readable := true }), (.far, .turn 0 .none), (.far, .turn 0 (.got [104])),
    (.far, .call 0 (.write [104])), (.far, .turn 0 .none), (.far, .turn 0 (.sent 1)), (.far, .ret 0),
    (.near, .io 5 { readable := true }), (.near, .turn 0 .none), (.near, .turn 0 (.got [104])),
    (.far, .turn 0 (.got [105]))]

theorem helloRun_conserves :
    ∃ e, run step { link := { near := .accepted 3 5 { address := "" }, far := .accepted 4 6 { address := "" } } } helloRun =
        some e ∧ received e.link.near.log = [104] ∧ e.owed = some [105] ∧
      received e.link.near.log ++ e.link.back ++ e.link.far.sock.outbuf.drop e.link.far.sock.outOffset ++
          (e.link.far.writing ++ e.owed.getD []) ++ e.link.out ++
          e.link.near.sock.outbuf.drop e.link.near.sock.outOffset = written e.link.near.log := by
  refine ⟨_, rfl, rfl, rfl, ?_⟩
  exact echo_conserves (h := 6) (Conn.accepted_established 3 5 { address := "" }) rfl
    (rfl : run step _ helloRun = _)

end EchoLink
end CxNetworking.Tcp
