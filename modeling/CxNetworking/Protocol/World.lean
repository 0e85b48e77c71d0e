import CxNetworking.Tcp.Server
import CxNetworking.Udp.Calls

/-! Sockets, servers and peers that share one event loop, used on the loop's thread and
from the listeners they call there. Objects are numbered as they are made, and an
object's number is what its callbacks hold, a `weak_ptr`. -/
namespace CxNetworking.Protocol
open CxNetworking.Core

inductive Object where
  | socket (s : Tcp.Socket)
  | server (s : Tcp.Server Nat)
  | peer (p : Udp.Peer)
  deriving DecidableEq, Repr

inductive Activation where
  | socket (o : Nat) (f : Tcp.Frame)
  | server (o : Nat) (f : Tcp.Server.Frame)
  | peer (o : Nat) (f : Udp.Peer.Frame)
  deriving DecidableEq, Repr

inductive Entry where
  | socket (o : Nat) (n : Tcp.Note)
  | server (o : Nat) (n : Tcp.Server.Note Nat)
  | peer (o : Nat) (n : Udp.Peer.Note)
  deriving DecidableEq, Repr

/-- The loop, the live objects, the frames of its thread, and the sockets whose `connect`
is resolving a name on the thread pool. -/
structure World where
  loop : EventLoop Nat (Nat × List SocketAddress)
  objects : Nat → Option Object := fun _ => none
  count : Nat := 0
  stack : List Activation := []
  resolving : List Nat := []
  log : List Entry := []

inductive Kind where
  | socket
  | server
  | peer (family : String)
  deriving DecidableEq, Repr

inductive Method where
  | socket (c : Tcp.Call)
  | server (c : Tcp.Server.Call)
  | peer (c : Udp.Peer.Call)
  deriving DecidableEq, Repr

/-- `destruct` is the release of the last `shared_ptr`. -/
inductive Label where
  | create (k : Kind)
  | call (o : Nat) (m : Method)
  | ret
  | turn (k : Kernel)
  | io (h : Handle) (r : Ready)
  | resolved (o : Nat) (addrs : List SocketAddress)
  | deferred
  | destruct (o : Nat)
  deriving DecidableEq, Repr

def Kind.object : Kind → Object
  | .socket => .socket {}
  | .server => .server {}
  | .peer family => .peer (Udp.Peer.create family)

namespace Object

def callback (o : Nat) (r : Ready) : Object → Activation
  | .socket _ => .socket o (.onIo r)
  | .server _ => .server o .accept
  | .peer _ => .peer o .drain

def handle : Object → Handle
  | .socket s => s.desc
  | .server s => s.fd
  | .peer p => p.fd

/-- A server forgets a connection; the other objects keep none. -/
def drop (conn : Nat) : Object → Object
  | .server s => .server (s.drop conn)
  | ob => ob

/-- An object keeps a socket alive. -/
def keeps (conn : Nat) : Object → Bool
  | .server s => s.conns.contains conn
  | _ => false

end Object

namespace Activation

def object : Activation → Nat
  | .socket o _ | .server o _ | .peer o _ => o

def isUser : Activation → Bool
  | .socket _ .user | .server _ .user | .peer _ .user => true
  | _ => false

end Activation

namespace World

def create (wakeFd : Handle) : World := { loop := { poller := { wakeFd } } }

def inUser (w : World) : Bool := w.stack.head?.all Activation.isUser

/-- The last `shared_ptr` to `o` may be released: no frame, no `connect` under way and no
server holds one. -/
def released (w : World) (o : Nat) : Bool :=
  w.stack.all (·.object != o) && !w.resolving.contains o && w.loop.deferred.all (·.1 != o) &&
    (List.range w.count).all fun i => (w.objects i).all fun ob => !ob.keeps o

/-- The objects after a turn of socket `o`. Each accepted socket has a listener for its
'close' that removes it from its server, if that is still there. -/
def afterSocket (objects : Nat → Option Object) (o : Nat) (s : Tcp.Socket) (notes : List Tcp.Note) :
    Nat → Option Object :=
  let objects := Function.update objects o (some (.socket s))
  if .emitted .close ∈ notes then fun i => (objects i).map (Object.drop o) else objects

def applySocket (w : World) (o : Nat) (rest : List Activation) (turn : Tcp.Turn Nat (Nat × List SocketAddress)) :
    World :=
  { w with
    loop := turn.loop
    objects := afterSocket w.objects o turn.obj turn.notes
    stack := turn.push.map (.socket o) ++ rest
    log := turn.notes.map (.socket o) ++ w.log }

def add (w : World) (ob : Object) : World :=
  { w with objects := Function.update w.objects w.count (some ob), count := w.count + 1 }

def applyServer (w : World) (o : Nat) (rest : List Activation)
    (turn : Tcp.Server.Turn Nat (Nat × List SocketAddress)) : World :=
  { w with
    loop := turn.loop
    objects := Function.update w.objects o (some (.server turn.obj))
    stack := turn.push.map (.server o) ++ rest
    log := turn.notes.map (.server o) ++ w.log }

/-- The socket that a server's turn makes comes first. -/
def made (w : World) (f : Tcp.Server.Frame) : World :=
  match Tcp.Server.accepted f with
  | some s => w.add (.socket s)
  | none => w

def applyPeer (w : World) (o : Nat) (rest : List Activation) (turn : Udp.Peer.Turn Nat (Nat × List SocketAddress)) :
    World :=
  { w with
    loop := turn.loop
    objects := Function.update w.objects o (some (.peer turn.obj))
    stack := turn.push.map (.peer o) ++ rest
    log := turn.notes.map (.peer o) ++ w.log }

def turn (w : World) (k : Kernel) : Option World :=
  match w.stack with
  | [] => none
  | .socket o f :: rest =>
    match w.objects o with
    | some (.socket s) => (s.exec o 0 w.loop f k).map (w.applySocket o rest)
    | _ => none
  | .server o f :: rest =>
    match w.objects o with
    | some (.server s) => (s.exec o w.count w.loop f k).map ((w.made f).applyServer o rest)
    | _ => none
  | .peer o f :: rest =>
    match w.objects o with
    | some (.peer p) => (p.exec o w.loop f k).map (w.applyPeer o rest)
    | _ => none

def call (w : World) (o : Nat) (m : Method) : Option World :=
  match m, w.objects o with
  | .socket c, some (.socket _) =>
    some { w with
      stack := c.frames.map (.socket o) ++ w.stack
      resolving := if c = .connect then o :: w.resolving else w.resolving
      log := .socket o (.called c) :: w.log }
  | .server c, some (.server _) =>
    some { w with stack := c.frames.map (.server o) ++ w.stack, log := .server o (.called c) :: w.log }
  | .peer c, some (.peer _) =>
    some { w with stack := c.frames.map (.peer o) ++ w.stack, log := .peer o (.called c) :: w.log }
  | _, _ => none

/-- A callback whose object is gone does nothing. -/
def dispatch (w : World) (o : Nat) (r : Ready) : World :=
  { w with stack := ((w.objects o).map (Object.callback o r)).toList }

def step (w : World) : Label → Option World
  | .create k => if w.inUser then some (w.add k.object) else none
  | .call o m => if w.inUser then w.call o m else none
  | .ret =>
    match w.stack with
    | a :: rest => if a.isUser then some { w with stack := rest } else none
    | [] => none
  | .turn k => w.turn k
  | .io h r => if w.stack = [] then (w.loop.callback h).map (w.dispatch · r) else none
  | .resolved o addrs =>
    if o ∈ w.resolving then
      some { w with resolving := w.resolving.erase o, loop := w.loop.defer (o, addrs) }
    else none
  | .deferred =>
    match w.stack, w.loop.deferred with
    | [], (o, addrs) :: deferred =>
      match w.objects o with
      | some (.socket s) => some (w.applySocket o [] (Tcp.connectResolved { w.loop with deferred } s addrs))
      | _ => none
    | _, _ => none
  | .destruct o =>
    if w.inUser ∧ (w.objects o).isSome ∧ w.released o then some { w with objects := Function.update w.objects o none }
    else none

inductive Stepped (w : World) : Label → World → Prop
  | create {k} : w.inUser = true → Stepped w (.create k) (w.add k.object)
  | callSocket {o s c} : w.inUser = true → w.objects o = some (.socket s) →
      Stepped w (.call o (.socket c)) { w with
        stack := c.frames.map (.socket o) ++ w.stack
        resolving := if c = .connect then o :: w.resolving else w.resolving
        log := .socket o (.called c) :: w.log }
  | callServer {o s c} : w.inUser = true → w.objects o = some (.server s) →
      Stepped w (.call o (.server c)) { w with
        stack := c.frames.map (.server o) ++ w.stack, log := .server o (.called c) :: w.log }
  | callPeer {o p c} : w.inUser = true → w.objects o = some (.peer p) →
      Stepped w (.call o (.peer c)) { w with
        stack := c.frames.map (.peer o) ++ w.stack, log := .peer o (.called c) :: w.log }
  | ret {a rest} : w.stack = a :: rest → a.isUser = true → Stepped w .ret { w with stack := rest }
  | socket {o f rest s k turn} : w.stack = .socket o f :: rest → w.objects o = some (.socket s) →
      s.Executed o 0 w.loop f k turn → Stepped w (.turn k) (w.applySocket o rest turn)
  | server {o f rest s k turn} : w.stack = .server o f :: rest → w.objects o = some (.server s) →
      s.Executed o w.count w.loop f k turn → Stepped w (.turn k) ((w.made f).applyServer o rest turn)
  | peer {o f rest p k turn} : w.stack = .peer o f :: rest → w.objects o = some (.peer p) →
      p.Executed o w.loop f k turn → Stepped w (.turn k) (w.applyPeer o rest turn)
  | io {h r o} : w.stack = [] → w.loop.callback h = some o → Stepped w (.io h r) (w.dispatch o r)
  | resolved {o addrs} : o ∈ w.resolving →
      Stepped w (.resolved o addrs) { w with resolving := w.resolving.erase o, loop := w.loop.defer (o, addrs) }
  | deferred {o addrs deferred s} : w.stack = [] → w.loop.deferred = (o, addrs) :: deferred →
      w.objects o = some (.socket s) →
      Stepped w .deferred (w.applySocket o [] (Tcp.connectResolved { w.loop with deferred } s addrs))
  | destruct {o ob} : w.inUser = true → w.objects o = some ob → w.released o = true →
      Stepped w (.destruct o) { w with objects := Function.update w.objects o none }

theorem turn_spec {w d : World} {k : Kernel} (h : w.turn k = some d) : Stepped w (.turn k) d := by
  unfold turn at h
  split at h
  · cases h
  · next o f rest hst =>
      split at h
      · next s ho =>
          obtain ⟨turn, hturn, rfl⟩ := Option.map_eq_some_iff.mp h
          exact .socket hst ho (Tcp.Socket.exec_spec hturn)
      · cases h
  · next o f rest hst =>
      split at h
      · next s ho =>
          obtain ⟨turn, hturn, rfl⟩ := Option.map_eq_some_iff.mp h
          exact .server hst ho (Tcp.Server.exec_spec hturn)
      · cases h
  · next o f rest hst =>
      split at h
      · next p ho =>
          obtain ⟨turn, hturn, rfl⟩ := Option.map_eq_some_iff.mp h
          exact .peer hst ho (Udp.Peer.exec_spec hturn)
      · cases h

theorem call_spec {w d : World} {o : Nat} {m : Method} (hu : w.inUser = true) (h : w.call o m = some d) :
    Stepped w (.call o m) d := by
  unfold call at h
  split at h
  · next ho =>
      cases h
      exact .callSocket hu ho
  · next ho =>
      cases h
      exact .callServer hu ho
  · next ho =>
      cases h
      exact .callPeer hu ho
  · cases h

theorem step_spec {w d : World} {a : Label} (h : w.step a = some d) : Stepped w a d := by
  cases a with
  | create k =>
      obtain ⟨hu, h⟩ := Option.ite_none_right_eq_some.mp h
      cases h
      exact .create hu
  | call o m =>
      obtain ⟨hu, h⟩ := Option.ite_none_right_eq_some.mp h
      exact call_spec hu h
  | ret =>
      simp only [step] at h
      split at h
      · next a rest hst =>
          obtain ⟨ha, h⟩ := Option.ite_none_right_eq_some.mp h
          cases h
          exact .ret hst ha
      · cases h
  | turn k => exact turn_spec h
  | io hd r =>
      obtain ⟨hst, h⟩ := Option.ite_none_right_eq_some.mp h
      obtain ⟨o, ho, rfl⟩ := Option.map_eq_some_iff.mp h
      exact .io hst ho
  | resolved o addrs =>
      obtain ⟨ho, h⟩ := Option.ite_none_right_eq_some.mp h
      cases h
      exact .resolved ho
  | deferred =>
      simp only [step] at h
      split at h
      · next o addrs deferred hst hdef =>
          split at h
          · next s ho =>
              cases h
              exact .deferred hst hdef ho
          · cases h
      · cases h
  | destruct o =>
      obtain ⟨⟨hu, ho, hr⟩, h⟩ := Option.ite_none_right_eq_some.mp h
      obtain ⟨ob, ho⟩ := Option.isSome_iff_exists.mp ho
      cases h
      exact .destruct hu ho hr

/-- A call of a peer, up to its end or to the first listener. -/
theorem call_performs {w : World} {o : Nat} {p : Udp.Peer} {c : Udp.Peer.Call} {ks : List Kernel}
    {turn : Udp.Peer.Turn Nat (Nat × List SocketAddress)} (hu : w.inUser = true) (ho : w.objects o = some (.peer p))
    (h : Udp.Peer.perform o w.loop p c.frames ks = some turn) :
    Execution.run step w (.call o (.peer c) :: ks.map .turn) =
      some ({ w with log := .peer o (.called c) :: w.log }.applyPeer o w.stack turn) := by
  let called : World := { w with log := .peer o (.called c) :: w.log }
  let start : Udp.Peer.Turn Nat (Nat × List SocketAddress) := { loop := w.loop, obj := p, push := c.frames }
  have hcall : w.step (.call o (.peer c)) = some (called.applyPeer o w.stack start) := by
    have hsame : Function.update w.objects o (some (.peer p)) = w.objects := by rw [← ho, Function.update_eq_self]
    simp [step, hu, call, ho, applyPeer, called, start, hsame]
  have hturn : ∀ {u s f rest k t}, s = called.applyPeer o w.stack u → u.push = f :: rest →
      u.obj.exec o u.loop f k = some t → ∃ d, step s (.turn k) = some d ∧
        d = called.applyPeer o w.stack { t with push := t.push ++ rest, notes := t.notes ++ u.notes } := by
    rintro u _ f rest k t rfl hpush ht
    refine ⟨_, ?_, rfl⟩
    simp [step, World.turn, applyPeer, hpush, ht]
  obtain ⟨d, hd, rfl⟩ :=
    Udp.Peer.perform_run (R := fun u s => s = called.applyPeer o w.stack u) (u := start) hturn rfl h
  exact Execution.run_cons.mpr ⟨_, hcall, by simpa [start] using hd⟩

/-- The numbers from the next one on have no object yet. -/
def Numbered (w : World) : Prop := ∀ i, w.count ≤ i → w.objects i = none

namespace Numbered

variable {w : World} {o i : Nat} {ob : Object}

theorem lt_of_live (h : w.Numbered) (ho : w.objects o = some ob) : o < w.count := by
  by_contra hle
  cases ho.symm.trans (h o (Nat.le_of_not_lt hle))

theorem update (h : w.Numbered) (ho : w.objects o = some ob) (hi : w.count ≤ i) (x : Option Object) :
    Function.update w.objects o x i = none := by
  have hne : i ≠ o := Nat.ne_of_gt (Nat.lt_of_lt_of_le (h.lt_of_live ho) hi)
  exact (Function.update_of_ne hne _ _).trans (h i hi)

theorem add (h : w.Numbered) (ob : Object) : (w.add ob).Numbered := by
  intro i hi
  have hlt : w.count < i := hi
  exact (Function.update_of_ne (Nat.ne_of_gt hlt) _ _).trans (h i (Nat.le_of_lt hlt))

theorem made (h : w.Numbered) (f : Tcp.Server.Frame) : (w.made f).Numbered := by
  unfold World.made
  split
  · exact h.add _
  · exact h

theorem applySocket (h : w.Numbered) {s : Tcp.Socket} (ho : w.objects o = some (.socket s)) (rest : List Activation)
    (turn : Tcp.Turn Nat (Nat × List SocketAddress)) : (w.applySocket o rest turn).Numbered := by
  intro i hi
  simp only [World.applySocket, afterSocket]
  split <;> simp [h.update ho hi]

end Numbered

/-- The number of a live object is not the one that a server's turn gives. -/
theorem made_objects {w : World} (h : w.Numbered) {o : Nat} {ob : Object} (ho : w.objects o = some ob)
    (f : Tcp.Server.Frame) : (w.made f).objects o = some ob := by
  unfold made
  split
  · exact (Function.update_of_ne (Nat.ne_of_lt (h.lt_of_live ho)) _ _).trans ho
  · exact ho

theorem create_numbered (wakeFd : Handle) : (create wakeFd).Numbered := fun _ _ => rfl

theorem step_numbered {w d : World} {a : Label} (h : w.Numbered) (hd : w.step a = some d) : d.Numbered := by
  cases step_spec hd with
  | create => exact h.add _
  | callSocket | callServer | callPeer | ret | io | resolved => exact h
  | socket _ ho | deferred _ _ ho => exact h.applySocket ho _ _
  | server _ ho => exact fun i hi => (h.made _).update (made_objects h ho _) hi _
  | peer _ ho | destruct _ ho => exact fun i hi => h.update ho hi _

end World
end CxNetworking.Protocol
