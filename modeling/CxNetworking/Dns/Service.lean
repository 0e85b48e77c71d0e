import CxNetworking.Dns.Server
import CxNetworking.Lib.Execution
import CxNetworking.Udp.Peer
import Mathlib.Data.List.Perm.Basic

/-! `dns::server` on its `udp::peer`. Each `listen` subscribes to the peer's events once
more and then binds; `close` cancels no subscription. An emission of the peer runs the
subscriptions it finds when it starts, one after the other. -/
namespace CxNetworking.Dns
open CxNetworking.Core CxNetworking.Udp Execution

/-- The events of the server; 'error' has a text of the server's or one passed on from
the peer. -/
inductive ServerEvent where
  | listening
  | query (request : Message) (reply : Responder)
  | error (text : Bytes)
  | peerError (f : Failure)
  | close
  deriving DecidableEq, Repr

def Server.reaction (datagram : Bytes) (source : SocketAddress) : ServerEvent :=
  match Server.receive datagram source with
  | .error text => .error text
  | .ok (request, reply) => .query request reply

theorem Server.reaction_request {datagram : Bytes} {m : Message} (source : SocketAddress)
    (h : Message.parse datagram = some m) :
    Server.reaction datagram source = .query m { to_ := source, requestId := m.header.id } := by
  unfold Server.reaction
  rw [Server.receive_request source h]

theorem Server.reaction_malformed {datagram : Bytes} (source : SocketAddress) (h : Message.parse datagram = none) :
    Server.reaction datagram source = .error (ascii "dropped a malformed query datagram") := by
  unfold Server.reaction
  rw [Server.receive_malformed source h]

/-- A peer's frame, the subscriptions that an emission of the peer has still to run, or
the rest of `close`. -/
inductive ServiceFrame where
  | user
  | peer (f : Peer.Frame)
  | subscribers (left : Nat) (e : Peer.Emission) (number : Nat)
  | emitClose
  deriving DecidableEq, Repr

/-- Datagrams are numbered as the peer delivers them; `delivered` records how many
subscriptions there were, `emitted` the datagram that an event is due to. -/
inductive ServiceNote where
  | delivered (number : Nat) (datagram : Bytes) (source : SocketAddress) (subscriptions : Nat)
  | emitted (e : ServerEvent) (cause : Option Nat)
  deriving DecidableEq, Repr

/-- The loop, the peer, the number of subscriptions to each of its events, and the
responders that listeners of 'query' have been given. -/
structure Service where
  loop : EventLoop Unit Unit
  peer : Peer := Peer.create "udp4"
  subscriptions : Nat := 0
  responders : List Responder := []
  stack : List ServiceFrame := []
  deliveries : Nat := 0
  log : List ServiceNote := []

inductive ServiceLabel where
  | listen (port : UInt16) (address : String)
  | close
  | respond (i : Nat) (reply : Message)
  | io (h : Handle)
  | turn (k : Kernel)
  | ret
  deriving DecidableEq, Repr

def emission : List Peer.Note → Option Peer.Emission
  | [] => none
  | .emitted e :: _ => some e
  | _ :: notes => emission notes

/-- `close` of the peer is not subscribed to. -/
def subscribed : Peer.Emission → Bool
  | .listening | .message _ _ | .error _ => true
  | .close => false

namespace Service

def create (wakeFd : Handle) : Service := { loop := { poller := { wakeFd } } }

def inUser (s : Service) : Bool := s.stack.head?.all (· == .user)

def listeners (s : Service) (e : Peer.Emission) : Nat := if subscribed e then s.subscriptions else 0

def emit (s : Service) (e : Peer.Emission) (rest : List ServiceFrame) : Service :=
  let stack := .subscribers (s.listeners e) e s.deliveries :: rest
  match e with
  | .message datagram source =>
    { s with
      stack
      deliveries := s.deliveries + 1
      log := .delivered s.deliveries datagram source s.subscriptions :: s.log }
  | _ => { s with stack }

def applyPeer (s : Service) (rest : List ServiceFrame) (turn : Peer.Turn Unit Unit) : Service :=
  let s := { s with loop := turn.loop, peer := turn.obj }
  match emission turn.notes with
  | some e => s.emit e (turn.push.tail.map .peer ++ rest)
  | none => { s with stack := turn.push.map .peer ++ rest }

def react (s : Service) (e : Peer.Emission) (number : Nat) (rest : List ServiceFrame) : Service :=
  match e with
  | .message datagram source =>
    { s with
      stack := .user :: rest
      responders := (Server.receive datagram source).toOption.toList.map (·.2) ++ s.responders
      log := .emitted (Server.reaction datagram source) (some number) :: s.log }
  | .error f => { s with stack := .user :: rest, log := .emitted (.peerError f) none :: s.log }
  | .listening => { s with stack := .user :: rest, log := .emitted .listening none :: s.log }
  | .close => { s with stack := rest }

def turn (s : Service) (k : Kernel) : Option Service :=
  match s.stack with
  | .peer f :: rest => (s.peer.exec () s.loop f k).map (s.applyPeer rest)
  | .subscribers 0 _ _ :: rest => some { s with stack := rest }
  | .subscribers (left + 1) e number :: rest => some (s.react e number (.subscribers left e number :: rest))
  | .emitClose :: rest => some { s with stack := .user :: rest, log := .emitted .close none :: s.log }
  | _ => none

def listen (s : Service) (port : UInt16) (address : String) : Service :=
  { s with subscriptions := s.subscriptions + 1, stack := .peer (.bind port address) :: s.stack }

/-- `responder::send`; without wire bytes it returns at once. -/
def respond (s : Service) (r : Responder) (reply : Message) : Service :=
  match (r.stamp reply).serialize with
  | none => s
  | some wire => { s with stack := .peer (.send wire r.to_.port r.to_.address) :: s.stack }

def step (s : Service) : ServiceLabel → Option Service
  | .listen port address => if s.inUser then some (s.listen port address) else none
  | .close => if s.inUser then some { s with stack := .peer .close :: .emitClose :: s.stack } else none
  | .respond i reply => if s.inUser then s.responders[i]?.map fun r => s.respond r reply else none
  | .io h => if s.stack = [] then (s.loop.callback h).map fun _ => { s with stack := [.peer .drain] } else none
  | .turn k => s.turn k
  | .ret =>
    match s.stack with
    | .user :: rest => some { s with stack := rest }
    | _ => none

inductive Stepped (s : Service) : ServiceLabel → Service → Prop
  | listen {port address} : Stepped s (.listen port address) (s.listen port address)
  | close : Stepped s .close { s with stack := .peer .close :: .emitClose :: s.stack }
  | unsent {i reply} : Stepped s (.respond i reply) s
  | respond {i reply wire} {r : Responder} : r ∈ s.responders →
      Stepped s (.respond i reply) { s with stack := .peer (.send wire r.to_.port r.to_.address) :: s.stack }
  | io {h} : s.stack = [] → s.loop.callback h = some () → Stepped s (.io h) { s with stack := [.peer .drain] }
  | peer {f rest k turn} : s.stack = .peer f :: rest → s.peer.Executed () s.loop f k turn →
      Stepped s (.turn k) (s.applyPeer rest turn)
  | done {e number rest k} : s.stack = .subscribers 0 e number :: rest → Stepped s (.turn k) { s with stack := rest }
  | react {left e number rest k} : s.stack = .subscribers (left + 1) e number :: rest →
      Stepped s (.turn k) (s.react e number (.subscribers left e number :: rest))
  | emitClose {rest k} : s.stack = .emitClose :: rest →
      Stepped s (.turn k) { s with stack := .user :: rest, log := .emitted .close none :: s.log }
  | ret {rest} : s.stack = .user :: rest → Stepped s .ret { s with stack := rest }

theorem step_spec {s d : Service} {a : ServiceLabel} (h : s.step a = some d) : Stepped s a d := by
  cases a with
  | listen port address =>
      obtain ⟨-, h⟩ := Option.ite_none_right_eq_some.mp h
      cases h
      exact .listen
  | close =>
      obtain ⟨-, h⟩ := Option.ite_none_right_eq_some.mp h
      cases h
      exact .close
  | respond i reply =>
      obtain ⟨-, h⟩ := Option.ite_none_right_eq_some.mp h
      obtain ⟨r, hr, rfl⟩ := Option.map_eq_some_iff.mp h
      unfold respond
      split
      · exact .unsent
      · exact .respond (List.mem_of_getElem? hr)
  | io hd =>
      obtain ⟨hst, h⟩ := Option.ite_none_right_eq_some.mp h
      obtain ⟨⟨⟩, ho, rfl⟩ := Option.map_eq_some_iff.mp h
      exact .io hst ho
  | turn k =>
      simp only [step, turn] at h
      split at h
      · next hst =>
          obtain ⟨turn, hturn, rfl⟩ := Option.map_eq_some_iff.mp h
          exact .peer hst (Peer.exec_spec hturn)
      · next hst => cases h; exact .done hst
      · next hst => cases h; exact .react hst
      · next hst => cases h; exact .emitClose hst
      · cases h
  | ret =>
      simp only [step] at h
      split at h
      · next hst => cases h; exact .ret hst
      · cases h

/-! The events due to each datagram. -/

/-- The events emitted for datagram `n` so far. -/
def caused (n : Nat) : List ServiceNote → List ServerEvent
  | [] => []
  | .emitted e (some m) :: earlier => if m = n then e :: caused n earlier else caused n earlier
  | _ :: earlier => caused n earlier

/-- The events that the frames have still to emit for datagram `n`. -/
def owed (n : Nat) : List ServiceFrame → List ServerEvent
  | [] => []
  | .subscribers left (.message datagram source) m :: rest =>
    if m = n then List.replicate left (Server.reaction datagram source) ++ owed n rest else owed n rest
  | _ :: rest => owed n rest

@[simp] theorem owed_peer (n : Nat) (f : Peer.Frame) (rest : List ServiceFrame) :
    owed n (.peer f :: rest) = owed n rest := rfl

@[simp] theorem owed_peers (n : Nat) (fs : List Peer.Frame) (rest : List ServiceFrame) :
    owed n (fs.map .peer ++ rest) = owed n rest := by
  induction fs with
  | nil => rfl
  | cons f fs ih => exact ih

theorem owed_done (n : Nat) (e : Peer.Emission) (number : Nat) (rest : List ServiceFrame) :
    owed n (.subscribers 0 e number :: rest) = owed n rest := by
  cases e with
  | message => simp [owed]
  | listening | error | close => rfl

/-- The datagrams have distinct numbers, and each is due as many events as there were
subscriptions when it was delivered. -/
structure Counted (s : Service) : Prop where
  fresh : ∀ n, s.deliveries ≤ n → caused n s.log = [] ∧ owed n s.stack = [] ∧
    ∀ datagram source k, .delivered n datagram source k ∉ s.log
  count : ∀ n datagram source k, .delivered n datagram source k ∈ s.log →
    (caused n s.log ++ owed n s.stack).Perm (List.replicate k (Server.reaction datagram source))

theorem create_counted (wakeFd : Handle) : (create wakeFd).Counted :=
  ⟨fun n _ => ⟨rfl, rfl, by simp [create]⟩, by simp [create]⟩

theorem Counted.same {s d : Service} (h : s.Counted) (hlog : d.log = s.log) (hnum : d.deliveries = s.deliveries)
    (howed : ∀ n, owed n d.stack = owed n s.stack) : d.Counted := by
  refine ⟨fun n hn => ?_, fun n => ?_⟩
  · rw [hlog, howed]
    exact h.fresh n (hnum ▸ hn)
  · rw [hlog, howed]
    exact h.count n

theorem Counted.uncaused {s d : Service} (h : s.Counted) {e : ServerEvent} (hlog : d.log = .emitted e none :: s.log)
    (hnum : d.deliveries = s.deliveries) (howed : ∀ n, owed n d.stack = owed n s.stack) : d.Counted := by
  refine ⟨fun n hn => ?_, fun n datagram source k hk => ?_⟩
  · rw [hlog, howed]
    simpa [caused] using h.fresh n (hnum ▸ hn)
  · rw [hlog, howed]
    rw [hlog] at hk
    exact h.count n datagram source k (by simpa using hk)

theorem emit_counted {s : Service} (h : s.Counted) (e : Peer.Emission) {rest : List ServiceFrame}
    (howed : ∀ n, owed n rest = owed n s.stack) : (s.emit e rest).Counted := by
  cases e with
  | listening | error | close => exact h.same rfl rfl howed
  | message datagram source =>
      obtain ⟨hcaused, hnone, hnew⟩ := h.fresh s.deliveries (Nat.le_refl _)
      refine ⟨fun n hn => ?_, fun n datagram' source' k hk => ?_⟩
      · have hlt : s.deliveries < n := hn
        obtain ⟨hcaused, hnone, hnew⟩ := h.fresh n (Nat.le_of_lt hlt)
        simp only [emit, caused, owed, hcaused, howed, hnone, Nat.ne_of_lt hlt, if_false, true_and]
        intro datagram' source' k hmem
        rcases List.mem_cons.mp hmem with heq | hmem
        · cases heq
          exact Nat.lt_irrefl _ hlt
        · exact hnew datagram' source' k hmem
      · rcases List.mem_cons.mp hk with heq | hk
        · cases heq
          simp [emit, caused, owed, hcaused, howed, hnone, listeners, subscribed]
        · have hne : s.deliveries ≠ n := by
            rintro rfl
            exact hnew datagram' source' k hk
          simp only [emit, caused, owed, howed, hne, if_false]
          exact h.count n datagram' source' k hk

theorem react_deliveries (s : Service) (e : Peer.Emission) (number : Nat) (rest : List ServiceFrame) :
    (s.react e number rest).deliveries = s.deliveries := by
  cases e <;> simp only [react]

theorem react_counted {s : Service} (h : s.Counted) {left number : Nat} {e : Peer.Emission}
    {rest : List ServiceFrame} (hst : s.stack = .subscribers (left + 1) e number :: rest) :
    (s.react e number (.subscribers left e number :: rest)).Counted := by
  cases e with
  | listening | error => exact h.uncaused rfl rfl fun n => by rw [hst]; rfl
  | close => exact h.same rfl rfl fun n => by rw [hst]; rfl
  | message datagram source =>
      have hlt : number < s.deliveries := by
        by_contra hle
        have hnone := (h.fresh number (Nat.le_of_not_lt hle)).2.1
        simp [hst, owed, List.replicate_succ] at hnone
      refine ⟨fun n hn => ?_, fun n datagram' source' k hk => ?_⟩
      · rw [react_deliveries] at hn
        have hne : number ≠ n := Nat.ne_of_lt (Nat.lt_of_lt_of_le hlt hn)
        obtain ⟨hcaused, hnone, hnew⟩ := h.fresh n hn
        rw [hst] at hnone
        simp only [owed, hne, if_false] at hnone
        simp only [react, caused, owed, hne, if_false, hcaused, hnone, true_and]
        intro datagram' source' k hmem
        exact hnew datagram' source' k (by simpa using hmem)
      · have hk := h.count n datagram' source' k (by simpa [react] using hk)
        rw [hst] at hk
        by_cases hsame : number = n
        · -- the event moves from what is owed to what was emitted
          simp only [owed, hsame, if_true, List.replicate_succ, List.cons_append] at hk
          simp only [react, caused, owed, hsame, if_true]
          exact List.perm_middle.symm.trans hk
        · simp only [owed, hsame, if_false] at hk
          simpa only [react, caused, owed, hsame, if_false] using hk

theorem applyPeer_counted {s : Service} (h : s.Counted) {f : Peer.Frame} {rest : List ServiceFrame}
    (hst : s.stack = .peer f :: rest) (turn : Peer.Turn Unit Unit) : (s.applyPeer rest turn).Counted := by
  have hkept : ({ s with loop := turn.loop, peer := turn.obj } : Service).Counted := h.same rfl rfl fun _ => rfl
  unfold applyPeer
  split
  · exact emit_counted hkept _ fun n => by rw [owed_peers, hst, owed_peer]
  · exact hkept.same rfl rfl fun n => by simp [hst]

theorem step_counted {s d : Service} {a : ServiceLabel} (h : s.Counted) (hd : s.step a = some d) : d.Counted := by
  cases step_spec hd with
  | listen | close | respond => exact h.same rfl rfl fun _ => rfl
  | unsent => exact h
  | io hst => exact h.same rfl rfl fun n => by rw [hst]; rfl
  | peer hst => exact applyPeer_counted h hst _
  | done hst => exact h.same rfl rfl fun n => by rw [hst, owed_done]
  | react hst => exact react_counted h hst
  | emitClose hst => exact h.uncaused rfl rfl fun n => by rw [hst]; rfl
  | ret hst => exact h.same rfl rfl fun n => by rw [hst]; rfl

/-! With one `listen`, every datagram finds one subscription. -/

/-- `listen` is not called a second time. -/
def ListensOnce (s : Service) : ServiceLabel → Prop
  | .listen _ _ => s.subscriptions = 0
  | _ => True

instance (s : Service) (a : ServiceLabel) : Decidable (s.ListensOnce a) :=
  match a with
  | .listen _ _ => inferInstanceAs (Decidable (_ = _))
  | .close | .respond _ _ | .io _ | .turn _ | .ret => isTrue trivial

def Idle : ServiceFrame → Prop
  | .user | .peer .close | .emitClose | .subscribers 0 _ _ => True
  | _ => False

/-- Without a subscription the peer is not in use. -/
structure Unused (s : Service) : Prop where
  watched : ∀ h, s.loop.callback h = none
  responders : s.responders = []
  idle : ∀ f ∈ s.stack, Idle f

structure Single (s : Service) : Prop where
  atMost : s.subscriptions ≤ 1
  unused : s.subscriptions = 0 → s.Unused
  delivered : ∀ n datagram source k, .delivered n datagram source k ∈ s.log → k = 1

theorem create_single (wakeFd : Handle) : (create wakeFd).Single :=
  ⟨Nat.zero_le _, fun _ => ⟨fun _ => by simp [create, EventLoop.callback], rfl, by simp [create]⟩, by simp [create]⟩

/-- Only `drain` delivers. -/
theorem executed_message {loop : EventLoop Unit Unit} {p : Peer} {f : Peer.Frame} {k : Kernel}
    {turn : Peer.Turn Unit Unit} (h : p.Executed () loop f k turn) {datagram : Bytes} {source : SocketAddress}
    (he : emission turn.notes = some (.message datagram source)) : f = .drain := by
  cases h with
  | drain => rfl
  | sendTo _ h => rcases Peer.sendTo_cases h with rfl | ⟨e, rfl⟩ <;> simp [Peer.noting, Peer.fail, Peer.emit, emission] at he
  | @readBack announce addr =>
      cases announce <;> simp [Peer.readBack, Peer.emit, emission] at he
  | close =>
      unfold Peer.close at he
      split at he <;> simp [Peer.emit, emission] at he
  | bind | send | notOpened | opened | nonblocking | blocking | closeFailed | bound | notBound | unresolved | resolved =>
      simp [Peer.noting, Peer.fail, Peer.emit, emission] at he

theorem Single.same {s d : Service} (h : s.Single) (hsubs : d.subscriptions = s.subscriptions)
    (hunused : s.Unused → d.Unused)
    (hlog : ∀ n datagram source k, .delivered n datagram source k ∈ d.log → .delivered n datagram source k ∈ s.log) :
    d.Single :=
  ⟨hsubs ▸ h.atMost, fun hd => hunused (h.unused (hsubs ▸ hd)),
    fun n datagram source k hk => h.delivered n datagram source k (hlog n datagram source k hk)⟩

/-- Before the first `listen`, the only turn of the peer is that of its `close`. -/
theorem applyPeer_unused {s : Service} (h : s.Unused) {f : Peer.Frame} {rest : List ServiceFrame} {k : Kernel}
    {turn : Peer.Turn Unit Unit} (hst : s.stack = .peer f :: rest)
    (hturn : s.peer.Executed () s.loop f k turn) : (s.applyPeer rest turn).Unused := by
  have hrest : ∀ g ∈ rest, Idle g := fun g hg => h.idle g (by simp [hst, hg])
  have hf : Idle (.peer f) := h.idle _ (by simp [hst])
  cases hturn with
  | close =>
      unfold Peer.close
      split
      · refine ⟨fun hd => ?_, h.responders, List.forall_mem_cons.mpr ⟨trivial, hrest⟩⟩
        simp [applyPeer, emission, Peer.emit, emit, EventLoop.callback_unwatch, Function.update_apply, h.watched]
      · exact ⟨h.watched, h.responders, hrest⟩
  | _ => exact hf.elim

theorem applyPeer_single {s : Service} (h : s.Single) {f : Peer.Frame} {rest : List ServiceFrame} {k : Kernel}
    {turn : Peer.Turn Unit Unit} (hst : s.stack = .peer f :: rest) (hturn : s.peer.Executed () s.loop f k turn) :
    (s.applyPeer rest turn).Single := by
  have hunused : s.subscriptions = 0 → (s.applyPeer rest turn).Unused := fun hsubs =>
    applyPeer_unused (h.unused hsubs) hst hturn
  unfold applyPeer at hunused ⊢
  split at hunused
  · next e he =>
      cases e with
      | listening | error | close => exact ⟨h.atMost, hunused, h.delivered⟩
      | message datagram source =>
          refine ⟨h.atMost, hunused, fun n datagram' source' k' hk => ?_⟩
          rcases List.mem_cons.mp hk with heq | hk
          · -- `drain` runs, so there is a subscription
            cases heq
            cases executed_message hturn he
            have hsome : s.subscriptions ≠ 0 := fun hsubs => (h.unused hsubs).idle (.peer .drain) (by simp [hst])
            exact Nat.le_antisymm h.atMost (Nat.pos_of_ne_zero hsome)
          · exact h.delivered n datagram' source' k' hk
  · exact ⟨h.atMost, hunused, h.delivered⟩

theorem react_log (s : Service) (e : Peer.Emission) (number : Nat) (rest : List ServiceFrame) :
    (s.react e number rest).subscriptions = s.subscriptions ∧ ∀ n datagram source k,
      .delivered n datagram source k ∈ (s.react e number rest).log → .delivered n datagram source k ∈ s.log := by
  cases e <;> simp [react]

theorem step_single {s d : Service} {a : ServiceLabel} (h : s.Single) (hok : s.ListensOnce a)
    (hd : s.step a = some d) : d.Single := by
  cases step_spec hd with
  | listen =>
      have hnone : s.subscriptions = 0 := hok
      refine ⟨by simp [Service.listen, hnone], fun hsubs => ?_, h.delivered⟩
      cases hsubs
  | close =>
      refine h.same rfl (fun hu => ⟨hu.watched, hu.responders, ?_⟩) fun _ _ _ _ hk => hk
      exact List.forall_mem_cons.mpr ⟨trivial, List.forall_mem_cons.mpr ⟨trivial, hu.idle⟩⟩
  | unsent => exact h
  | respond hr =>
      refine h.same rfl (fun hu => ?_) fun _ _ _ _ hk => hk
      simp [hu.responders] at hr
  | io hst ho =>
      refine h.same rfl (fun hu => ?_) fun _ _ _ _ hk => hk
      cases (hu.watched _).symm.trans ho
  | peer hst hturn => exact applyPeer_single h hst hturn
  | done hst | ret hst =>
      refine h.same rfl (fun hu => ⟨hu.watched, hu.responders, fun f hf => hu.idle f ?_⟩) fun _ _ _ _ hk => hk
      exact hst ▸ List.mem_cons_of_mem _ hf
  | @react left e number rest k hst =>
      obtain ⟨hsubs, hlog⟩ := s.react_log e number (.subscribers left e number :: rest)
      refine h.same hsubs (fun hu => ?_) hlog
      have hidle := hu.idle (.subscribers (left + 1) e number) (by simp [hst])
      exact hidle.elim
  | emitClose hst =>
      refine h.same rfl (fun hu => ⟨hu.watched, hu.responders, ?_⟩) fun _ _ _ _ hk => by simpa using hk
      refine List.forall_mem_cons.mpr ⟨trivial, fun f hf => hu.idle f ?_⟩
      exact hst ▸ List.mem_cons_of_mem _ hf

/-- In every run in which `listen` is not called a second time, each datagram that the peer
has delivered has caused exactly one event of the server when the listeners have returned:
a 'query' with the parsed request, or an 'error' for a datagram that is no message. -/
theorem one_event_per_datagram (wakeFd : Handle) {as : List ServiceLabel}
    (hok : Along step ListensOnce (create wakeFd) as) :
    Throughout step (fun s => s.stack = [] → ∀ n datagram source k, .delivered n datagram source k ∈ s.log →
      (∀ m, Message.parse datagram = some m →
        caused n s.log = [.query m { to_ := source, requestId := m.header.id }]) ∧
      (Message.parse datagram = none → caused n s.log = [.error (ascii "dropped a malformed query datagram")]))
      (create wakeFd) as := by
  refine (throughout_of_along (I := fun s => s.Counted ∧ s.Single) ?_
    ⟨create_counted wakeFd, create_single wakeFd⟩ hok).mono ?_
  · rintro s a d ⟨hc, hs⟩ ha hd
    exact ⟨step_counted hc hd, step_single hs ha hd⟩
  · rintro s ⟨hc, hs⟩ hst n datagram source k hk
    have hevents := List.perm_replicate.mp (hc.count n datagram source k hk)
    simp only [hst, owed, List.append_nil, hs.delivered n datagram source k hk, List.replicate_one] at hevents
    refine ⟨fun m hm => ?_, fun hnone => ?_⟩
    · exact hevents.trans (congrArg ([·]) (Server.reaction_request source hm))
    · exact hevents.trans (congrArg ([·]) (Server.reaction_malformed source hnone))

/-- The turns of a `listen` that succeeds on descriptor `d`, with `n` subscriptions to
'listening'. -/
def bindTurns (d : Handle) (n : Nat) : List ServiceLabel :=
  [.turn .none, .turn (.opened d), .turn (.status .success), .turn (.status .success),
    .turn (.endpoint { address := "0.0.0.0", port := 53, family := 2 })] ++
    (List.replicate n [ServiceLabel.turn .none, .ret]).flatten ++ [.turn .none]

def querier : SocketAddress := { address := "10.0.0.9", port := 4000, family := 2 }

def emptyRequest : Bytes := 0 :: 7 :: List.replicate 10 0

/-- The turns of a datagram with `n` subscriptions to 'message'. -/
def datagramTurns (datagram : Bytes) (n : Nat) : List ServiceLabel :=
  [.turn (.received datagram querier)] ++ (List.replicate n [ServiceLabel.turn .none, .ret]).flatten ++ [.turn .none]

/-- A request, and a datagram that is too short for a header. -/
def oneListen : List ServiceLabel :=
  [.listen 53 "0.0.0.0"] ++ bindTurns 5 1 ++ [.io 5] ++ datagramTurns emptyRequest 1 ++ datagramTurns [1] 1 ++
    [.turn (.failed .again)]

theorem oneListen_one_event :
    ∃ s m, run step (create 3) oneListen = some s ∧ Message.parse emptyRequest = some m ∧
      caused 0 s.log = [.query m { to_ := querier, requestId := m.header.id }] ∧
      caused 1 s.log = [.error (ascii "dropped a malformed query datagram")] := by
  have hfacts : (run step (create 3) oneListen).map (fun s => (s.stack,
      decide (.delivered 0 emptyRequest querier 1 ∈ s.log), decide (.delivered 1 [1] querier 1 ∈ s.log))) =
      some ([], true, true) := by
    decide +kernel
  obtain ⟨s, hs, hfacts⟩ := Option.map_eq_some_iff.mp hfacts
  simp only [Prod.mk.injEq, decide_eq_true_eq] at hfacts
  obtain ⟨hst, hrequest, hshort⟩ := hfacts
  obtain ⟨m, hm⟩ := Option.isSome_iff_exists.mp
    (show (Message.parse emptyRequest).isSome = true by decide +kernel)
  have hok : Along step ListensOnce (create 3) oneListen := by decide +kernel
  have hevents := (one_event_per_datagram 3 hok).last hs hst
  exact ⟨s, m, hs, hm, (hevents 0 _ _ 1 hrequest).1 m hm, (hevents 1 _ _ 1 hshort).2 (by decide +kernel)⟩

/-- `bind` fails with EADDRINUSE, and the user calls `listen` again. -/
def retriedListen : List ServiceLabel :=
  [.listen 53 "0.0.0.0", .turn .none, .turn (.opened 5), .turn (.status .success), .turn (.status ⟨98⟩), .turn .none,
    .ret, .turn .none, .listen 53 "0.0.0.0", .turn .none, .turn (.status .success),
    .turn (.endpoint { address := "0.0.0.0", port := 53, family := 2 }), .turn .none, .ret, .turn .none, .ret,
    .turn .none, .io 5] ++ datagramTurns emptyRequest 2 ++ [.turn (.failed .again)]

/-- The one request is emitted twice. -/
theorem retriedListen_two_queries :
    ∃ s m r, run step (create 3) retriedListen = some s ∧ s.stack = [] ∧
      .delivered 0 emptyRequest querier 2 ∈ s.log ∧ Message.parse emptyRequest = some m ∧
      caused 0 s.log = [.query m r, .query m r] := by
  have hfacts : (run step (create 3) retriedListen).map (fun s =>
      (s.stack, decide (.delivered 0 emptyRequest querier 2 ∈ s.log))) = some ([], true) := by
    decide +kernel
  obtain ⟨s, hs, hfacts⟩ := Option.map_eq_some_iff.mp hfacts
  simp only [Prod.mk.injEq, decide_eq_true_eq] at hfacts
  obtain ⟨hst, hmem⟩ := hfacts
  obtain ⟨m, hm⟩ := Option.isSome_iff_exists.mp
    (show (Message.parse emptyRequest).isSome = true by decide +kernel)
  have hcount := (run_invariant (fun _ _ _ => step_counted) (create_counted 3) hs).count 0 _ _ 2 hmem
  rw [hst, Server.reaction_request _ hm] at hcount
  simp only [owed, List.append_nil] at hcount
  exact ⟨s, m, _, hs, hst, hmem, hm, List.perm_replicate.mp hcount⟩

end Service
end CxNetworking.Dns
