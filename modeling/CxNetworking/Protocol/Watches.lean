import CxNetworking.Lib.Execution
import CxNetworking.Lib.Registry
import CxNetworking.Protocol.World
import CxNetworking.Tcp.Frames

/-! Which handles are watched. A watch is removed where an object closes its descriptor by
a method; the destructors, a second `connect` or `listen`, and a peer that fails to open
close the descriptor without it. -/
namespace CxNetworking

/-! What the frame on top relies on, by the type of its object. -/

namespace Tcp.Socket
open CxNetworking.Core

variable {κ δ : Type} {self : κ} {t : Nat} {loop : EventLoop κ δ} {s : Socket} {f : Frame} {answer : Kernel}
  {turn : Turn κ δ}

def Prepared (loop : EventLoop κ δ) (s : Socket) : Frame → Prop
  | .setNonblocking d _ | .connectTo d _ | .storeConnect d _ => valid d = true
  | .watchConnect => valid s.desc = true
  | .closeDesc => loop.callback s.desc = none
  | _ => True

theorem prepared_of_resting (h : f.Resting) : s.Prepared loop f := by
  cases f <;> trivial

theorem afterPump_prepared {notes : List Note} {k : Caller} {s' : Socket} {loop' : EventLoop κ δ} :
    ∀ g ∈ (afterPump t loop s notes k).push, s'.Prepared loop' g := by
  rcases afterPump_cases t loop s k notes with
    ⟨-, -, heq⟩ | ⟨-, -, heq⟩ | ⟨r, -, -, heq⟩ | ⟨r, -, -, heq⟩ <;> rw [heq]
  · simp [Prepared]
  · simp
  · rcases readHalf_eq r with hr | hr <;> simp [hr, Prepared]
  · simp [Prepared]

theorem pumpOutput_prepared {notes : List Note} {k : Caller} {s' : Socket} {loop' : EventLoop κ δ} :
    ∀ g ∈ (pumpOutput t loop s notes k).push, s'.Prepared loop' g := by
  unfold pumpOutput
  split
  · simp [Prepared]
  · exact afterPump_prepared

theorem executed_prepared (h : Executed self t loop s f answer turn) (hp : s.Prepared loop f) :
    ∀ g ∈ turn.push, turn.obj.Prepared turn.loop g := by
  cases h with
  | @write chunk =>
      rcases write_cases t loop s chunk with ⟨-, heq⟩ | ⟨-, -, heq⟩ | ⟨-, -, heq⟩ <;> rw [heq]
      · simp [fail, emit, Prepared]
      · simp [Prepared]
      · exact pumpOutput_prepared
  | pump _ h =>
      rcases pump_cases h with ⟨n, -, -, rfl⟩ | rfl | rfl | ⟨e, rfl⟩
      · exact pumpOutput_prepared
      · exact afterPump_prepared
      · simp [Prepared]
      · simp [fail, emit, Prepared]
  | relock => exact afterPump_prepared
  | pumpOutput => exact pumpOutput_prepared
  | recv _ h =>
      rcases recv_cases h with rfl | ⟨chunk, rfl⟩ | rfl | rfl | ⟨e, rfl⟩ <;> simp [fail, emit, Prepared]
  | @onIo r =>
      rcases readHalf_eq r with hr | hr <;> cases hs : s.state <;> cases hw : r.writable <;>
        simp [onIo, hs, hw, hr, Prepared]
  | @afterDrain r => rcases readHalf_eq r with hr | hr <;> simp [afterDrain, hr, Prepared]
  | afterConnect =>
      unfold afterConnect
      split <;> simp [Prepared]
  | closeBegin =>
      simp only [closeBegin]
      split <;> simp [Prepared]
  | closeUnwatch => simp [Prepared, EventLoop.callback_unwatch]
  | opened hd => simpa [Prepared] using hd
  | nonblocking | connecting | storeConnect => simpa [Socket.storeConnect, Prepared] using hp
  | halfClose | refused | lowerConnected | lowerDrained | closeDesc | notOpened | blocking | unreachable | raise
    | connected | setOpen | watchConnect | dropLocal => simp [halfClose, Socket.setOpen, fail, emit, Prepared]

end Tcp.Socket

namespace Tcp.Server
open CxNetworking.Core

variable {κ δ : Type} {self conn : κ} {loop : EventLoop κ δ} {s : Server κ} {f : Frame} {answer : Kernel}
  {turn : Turn κ δ}

def Frame.Prepared : Frame → Prop
  | .bindTo d _ | .listenOn d | .setNonblocking d | .store d | .acceptNonblocking d _ | .adopt d _ => valid d = true
  | _ => True

/-- The frames that may lie below others. -/
def Frame.Resting : Frame → Prop
  | .user | .accept | .dropLocal _ => True
  | _ => False

theorem executed_prepared (h : Executed self conn loop s f answer turn) (hp : f.Prepared) :
    (∀ g ∈ turn.push, g.Prepared) ∧ ∀ g ∈ turn.push.tail, g.Resting := by
  cases h with
  | bindTo | listenOn | setNonblocking =>
      unfold require
      split
      · simpa [Frame.Prepared] using hp
      · simp [fail, emit, Frame.Prepared, Frame.Resting]
  | accept _ h =>
      rcases accept_cases h with ⟨d, peer, hd, rfl⟩ | rfl | rfl | ⟨e, rfl⟩ <;> simp [fail, emit, Frame.Prepared]
      exact hd
  | close =>
      unfold close
      split <;> simp [emit, Frame.Prepared]
  | opened hd => simpa [Frame.Prepared] using hd
  | acceptNonblocking =>
      split
      · simpa [Frame.Prepared] using hp
      · simp [Frame.Prepared]
  | unresolved | resolved | notOpened | store | adopt | dropLocal =>
      simp [fail, emit, Server.store, Server.adopt, Frame.Prepared, Frame.Resting]

end Tcp.Server

namespace Udp.Peer
open CxNetworking.Core

variable {κ δ : Type} {self : κ} {loop : EventLoop κ δ} {p : Peer} {f : Frame} {answer : Kernel} {turn : Turn κ δ}

def Prepared (p : Peer) : Frame → Prop
  | .openSocket _ => valid p.fd = false
  | .setNonblocking _ | .bindTo _ | .resolve _ _ _ | .sendTo _ _ | .readBack _ => valid p.fd = true
  | _ => True

def Frame.Resting (f : Frame) : Prop := f = .user ∨ f = .drain ∨ f = .closeFailed

theorem opening_prepared (k : Opening) :
    (∀ g ∈ p.opening k, p.Prepared g) ∧ ∀ g ∈ (p.opening k).tail, g.Resting := by
  unfold opening
  split
  · next hv => cases k <;> simpa [Opening.next, Prepared] using hv
  · next hv => simpa [Prepared] using hv

theorem executed_prepared (h : Executed self loop p f answer turn) (hp : p.Prepared f) :
    (∀ g ∈ turn.push, turn.obj.Prepared g) ∧ ∀ g ∈ turn.push.tail, g.Resting := by
  cases h with
  | bind | send => exact opening_prepared _
  | opened hd => simpa [Prepared] using hd
  | @nonblocking k => cases k <;> simpa [Opening.next, Prepared] using hp
  | sendTo _ h =>
      rcases sendTo_cases h with rfl | ⟨e, rfl⟩
      · cases hr : p.reading
        · simpa [noting, hr, Prepared] using hp
        · simp [noting]
      · simp [noting, fail, emit, Prepared]
  | drain _ h =>
      rcases drain_cases h with ⟨datagram, source, rfl⟩ | rfl | rfl | ⟨e, rfl⟩ <;>
        simp [fail, emit, Prepared, Frame.Resting]
  | @readBack announce addr =>
      obtain ⟨push, notes, hpush, h⟩ := readBack_cases self loop p addr announce
      rcases h with ⟨-, heq⟩ | ⟨-, heq⟩ <;> rw [heq] <;> rcases hpush with rfl | rfl <;> simp [Prepared]
  | close =>
      unfold close
      split <;> simp [emit, Prepared]
  | bound | resolved => simpa [noting, Prepared] using hp
  | notOpened | blocking | closeFailed | notBound | unresolved =>
      simp [noting, fail, emit, Prepared, Frame.Resting]

end Udp.Peer

namespace Protocol
open CxNetworking.Core Execution Registry

/-- The handle that an object is registered under while no operation is in progress. -/
def Object.registered : Object → Option Handle
  | .socket s => if valid s.desc then some s.desc else none
  | .server s => if valid s.fd then some s.fd else none
  | .peer p => if p.reading ∧ valid p.fd then some p.fd else none

def heldBy (objects : Nat → Option Object) (o : Nat) : Option Handle := (objects o).bind Object.registered

theorem Object.handle_of_registered {ob : Object} {h : Handle} (hob : ob.registered = some h) :
    ob.handle = h ∧ valid h = true := by
  cases ob with
  | socket s | server s =>
      obtain ⟨hv, hd⟩ := Option.ite_none_right_eq_some.mp hob
      cases hd
      exact ⟨rfl, hv⟩
  | peer p =>
      obtain ⟨hv, hd⟩ := Option.ite_none_right_eq_some.mp hob
      cases hd
      exact ⟨rfl, hv.2⟩

section Held

variable {objects : Nat → Option Object} {o : Nat} {ob : Object}

theorem heldBy_update (objects : Nat → Option Object) (o : Nat) (x : Option Object) :
    heldBy (Function.update objects o x) = Function.update (heldBy objects) o (x.bind Object.registered) := by
  funext i
  simp only [heldBy, Function.update_apply]
  split <;> rfl

theorem heldBy_keep (ho : objects o = some ob) {ob' : Object} (hr : ob'.registered = ob.registered) :
    heldBy (Function.update objects o (some ob')) = heldBy objects := by
  have hheld : ob'.registered = heldBy objects o := by simp [heldBy, ho, hr]
  rw [heldBy_update, Option.bind_some, hheld, Function.update_eq_self]

theorem registered_drop (conn : Nat) (ob : Object) : (ob.drop conn).registered = ob.registered := by
  cases ob <;> rfl

theorem heldBy_afterSocket (objects : Nat → Option Object) (o : Nat) (s : Tcp.Socket) (notes : List Tcp.Note) :
    heldBy (World.afterSocket objects o s notes) = heldBy (Function.update objects o (some (.socket s))) := by
  unfold World.afterSocket
  split
  · funext i
    simp only [heldBy, Option.bind_map, Function.comp_def, registered_drop]
  · rfl

end Held

/-- Every callback is that of an object which holds the watched handle, and only watched
handles are polled. -/
structure Consistent (objects : Nat → Option Object) (loop : EventLoop Nat (Nat × List SocketAddress)) : Prop where
  sound : Sound (heldBy objects) loop.callback
  covered : loop.Covered

namespace Consistent

variable {objects objects' : Nat → Option Object} {loop : EventLoop Nat (Nat × List SocketAddress)} {o : Nat}
  {d : Handle}

theorem of_held (h : Consistent objects loop) (heq : heldBy objects' = heldBy objects) : Consistent objects' loop :=
  ⟨heq ▸ h.sound, h.covered⟩

/-- An object that no callback names may be changed, made or removed. -/
theorem replace (h : Consistent objects loop) (ho : ∀ j, loop.callback j ≠ some o) (x : Option Object) :
    Consistent (Function.update objects o x) loop :=
  ⟨heldBy_update objects o x ▸ h.sound.rehold ho _, h.covered⟩

theorem watch (h : Consistent objects loop) (ho : heldBy objects o = some d) (events : Interest) :
    Consistent objects (loop.watch d events o) :=
  ⟨loop.callback_watch d events o ▸ h.sound.enter ho, h.covered.watch d events o⟩

theorem unwatch (h : Consistent objects loop) (d : Handle) : Consistent objects (loop.unwatch d) :=
  ⟨loop.callback_unwatch d ▸ h.sound.strike d, h.covered.unwatch d⟩

theorem modify (h : Consistent objects loop) (d : Handle) (events : Interest) :
    Consistent objects (loop.modify d events) :=
  ⟨loop.callback_modify d events ▸ h.sound, h.covered.modify d events⟩

theorem unnamed_unwatch (h : Consistent objects loop) (ho : ∀ j, heldBy objects o = some j → j = d) (j : Handle) :
    (loop.unwatch d).callback j ≠ some o :=
  loop.callback_unwatch d ▸ h.sound.unnamed_strike ho j

theorem socket {s : Tcp.Socket} {f : Tcp.Frame} {k : Kernel} {turn : Tcp.Turn Nat (Nat × List SocketAddress)}
    (h : Consistent objects loop) (ho : objects o = some (.socket s)) (hp : s.Prepared loop f)
    (hok : ∀ d addr, f = .storeConnect d addr → heldBy objects o = none) (hturn : s.Executed o 0 loop f k turn) :
    Consistent (World.afterSocket objects o turn.obj turn.notes) turn.loop := by
  refine of_held ?_ (heldBy_afterSocket objects o turn.obj turn.notes)
  have hkeep : ∀ {s' : Tcp.Socket}, s'.desc = s.desc →
      heldBy (Function.update objects o (some (.socket s'))) = heldBy objects := fun hdesc =>
    heldBy_keep ho (by simp only [Object.registered, hdesc])
  cases Tcp.Socket.executed_registration hturn with
  | kept hdesc hloop => exact hloop ▸ h.of_held (hkeep hdesc)
  | raised hdesc hloop | lowered _ hdesc hloop => exact hloop ▸ (h.modify _ _).of_held (hkeep hdesc)
  | unwatched hobj hloop => exact hloop ▸ (h.unwatch _).of_held (hkeep (by rw [hobj]))
  | closed hobj hloop =>
      refine hloop ▸ h.replace (fun j hj => ?_) _
      have hheld := h.sound j o hj
      simp only [heldBy, ho, Option.bind_some] at hheld
      cases (Object.handle_of_registered hheld).1
      cases hp.symm.trans hj
  | stored _ hloop => exact hloop ▸ h.replace (h.sound.unnamed (hok _ _ rfl)) _
  | watched hobj hloop =>
      have hv : valid s.desc = true := hp
      have hheld : heldBy objects o = some s.desc := by simp [heldBy, ho, Object.registered, hv]
      exact hloop ▸ (h.watch hheld .write).of_held (hkeep (by rw [hobj]))

theorem server {w : World} {s : Tcp.Server Nat} {f : Tcp.Server.Frame} {k : Kernel}
    {turn : Tcp.Server.Turn Nat (Nat × List SocketAddress)} (h : Consistent w.objects w.loop)
    (ho : w.objects o = some (.server s)) (hnew : w.objects w.count = none) (hp : f.Prepared)
    (hok : ∀ d, f = .store d → heldBy w.objects o = none) (hturn : s.Executed o w.count w.loop f k turn) :
    Consistent (Function.update (w.made f).objects o (some (.server turn.obj))) turn.loop := by
  cases Tcp.Server.executed_registration hturn with
  | kept hf hobj hloop =>
      simp only [World.made, hf]
      exact hloop ▸ h.of_held (heldBy_keep ho (by rw [hobj]))
  | @stored d _ hfd hloop =>
      have hv : valid d = true := hp
      have hnamed := h.sound.unnamed (hok _ rfl)
      refine hloop ▸ (h.replace hnamed _).watch ?_ .read
      simp [heldBy, Object.registered, hfd, hv]
  | closed hfd hloop =>
      refine hloop ▸ (h.unwatch s.fd).replace (h.unnamed_unwatch fun j hj => ?_) _
      simp only [heldBy, ho, Option.bind_some] at hj
      exact (Object.handle_of_registered hj).1.symm
  | @adopted d peer _ hfd hloop =>
      have hv : valid d = true := hp
      have hne : o ≠ w.count := by
        rintro rfl
        cases ho.symm.trans hnew
      let conn : Object := .socket { state := .open, desc := d, peer }
      have hmade : Consistent (Function.update w.objects w.count (some conn)) w.loop :=
        h.replace (h.sound.unnamed (by simp [heldBy, hnew])) _
      have hheld : heldBy (Function.update w.objects w.count (some conn)) w.count = some d := by
        simp [heldBy, conn, Object.registered, hv]
      have hs : (w.made (.adopt d peer)).objects o = some (.server s) := (Function.update_of_ne hne _ _).trans ho
      exact hloop ▸ (hmade.watch hheld .read).of_held (heldBy_keep hs (by simp only [Object.registered, hfd]))

/-- A peer's turn, except that a failed open may only close a descriptor that is not read. -/
theorem peer {p : Udp.Peer} {f : Udp.Peer.Frame} {k : Kernel} {turn : Udp.Peer.Turn Nat (Nat × List SocketAddress)}
    (h : Consistent objects loop) (ho : objects o = some (.peer p)) (hp : p.Prepared f)
    (hok : f = .closeFailed → heldBy objects o = none) (hturn : p.Executed o loop f k turn) :
    Consistent (Function.update objects o (some (.peer turn.obj))) turn.loop := by
  cases Udp.Peer.executed_registration hturn with
  | kept hfd hr hloop => exact hloop ▸ h.of_held (heldBy_keep ho (by simp only [Object.registered, hfd, hr]))
  | opened hfd hr hloop =>
      have hv : valid p.fd = false := hp
      exact hloop ▸ h.replace (h.sound.unnamed (by simp [heldBy, ho, Object.registered, hv])) _
  | failed _ _ hloop => exact hloop ▸ h.replace (h.sound.unnamed (hok rfl)) _
  | reading hr hfd hr' hloop =>
      have hv : valid p.fd = true := hp
      have hnamed := h.sound.unnamed (o := o) (by simp [heldBy, ho, Object.registered, hr])
      exact hloop ▸ (h.replace hnamed _).watch (by simp [heldBy, Object.registered, hr', hfd, hv]) .read
  | closed hfd hloop =>
      refine hloop ▸ (h.unwatch p.fd).replace (h.unnamed_unwatch fun j hj => ?_) _
      simp only [heldBy, ho, Option.bind_some] at hj
      exact (Object.handle_of_registered hj).1.symm

end Consistent

/-- The frames that give up a descriptor, or replace it, without `unwatch`. -/
def Activation.releases : Activation → Bool
  | .socket _ (.storeConnect _ _) | .server _ (.store _) | .peer _ .closeFailed => true
  | _ => false

def Activation.Resting : Activation → Prop
  | .socket _ f => f.Resting
  | .server _ f => f.Resting
  | .peer _ f => f.Resting

namespace World

def Prepared (w : World) : Activation → Prop
  | .socket o f => ∀ s, w.objects o = some (.socket s) → s.Prepared w.loop f
  | .server _ f => f.Prepared
  | .peer o f => ∀ p, w.objects o = some (.peer p) → p.Prepared f

structure Tracked (w : World) : Prop where
  consistent : Consistent w.objects w.loop
  prepared : ∀ a ∈ w.stack.head?, w.Prepared a
  resting : ∀ a ∈ w.stack.tail, a.Resting
  numbered : w.Numbered

/-- A descriptor is given up or replaced without `unwatch`, and an object destructed, only
while the object is not registered: a socket or a server has no valid descriptor, a peer
has none or is not reading. -/
def KeepsWatches (w : World) : Label → Prop
  | .turn _ => ∀ a ∈ w.stack.head?, a.releases = true → heldBy w.objects a.object = none
  | .destruct o => heldBy w.objects o = none
  | .create _ | .call _ _ | .ret | .io _ _ | .resolved _ _ | .deferred => True

instance (w : World) (a : Label) : Decidable (w.KeepsWatches a) :=
  match a with
  | .turn _ => inferInstanceAs (Decidable (∀ a ∈ w.stack.head?, _ → _))
  | .destruct _ => inferInstanceAs (Decidable (_ = _))
  | .create _ | .call _ _ | .ret | .io _ _ | .resolved _ _ | .deferred => isTrue trivial

theorem prepared_of_resting {w : World} {a : Activation} (h : a.Resting) : w.Prepared a := by
  cases a with
  | socket o f => exact fun s _ => Tcp.Socket.prepared_of_resting h
  | server o f => cases f <;> trivial
  | peer o f => rcases h with rfl | rfl | rfl <;> exact fun p _ => trivial

theorem prepared_append {w : World} {push rest : List Activation} (hpush : ∀ a ∈ push, w.Prepared a)
    (hrest : ∀ a ∈ rest, a.Resting) : ∀ a ∈ (push ++ rest).head?, w.Prepared a := by
  intro a ha
  cases push with
  | nil => exact prepared_of_resting (hrest a (List.mem_of_mem_head? ha))
  | cons p push =>
      cases ha
      exact hpush _ List.mem_cons_self

theorem resting_of_isUser {a : Activation} (h : a.isUser = true) : a.Resting := by
  unfold Activation.isUser at h
  split at h
  · trivial
  · trivial
  · exact .inl rfl
  · cases h

theorem Tracked.resting_of_inUser {w : World} (h : w.Tracked) (hu : w.inUser = true) : ∀ a ∈ w.stack, a.Resting := by
  have hrest := h.resting
  unfold inUser at hu
  cases hst : w.stack with
  | nil => simp
  | cons a rest =>
      rw [hst] at hu hrest
      exact List.forall_mem_cons.mpr ⟨resting_of_isUser hu, hrest⟩

theorem Tracked.enter {w : World} (h : w.Tracked) (hu : w.inUser = true) {push : List Activation}
    (hpush : ∀ a ∈ push, w.Prepared a) (htail : push.tail = []) (resolving : List Nat) (log : List Entry) :
    Tracked { w with stack := push ++ w.stack, resolving, log } := by
  have hrest := h.resting_of_inUser hu
  refine ⟨h.consistent, prepared_append hpush hrest, fun a ha => ?_, h.numbered⟩
  rcases Tcp.mem_tail_append ha with ha | ha
  · simp [htail] at ha
  · exact hrest a ha

theorem afterSocket_self (objects : Nat → Option Object) (o : Nat) (s : Tcp.Socket) (notes : List Tcp.Note) :
    afterSocket objects o s notes o = some (.socket s) := by
  unfold afterSocket
  split <;> simp [Object.drop]

theorem tracked_of_resting {w : World} (hcons : Consistent w.objects w.loop) (hrest : ∀ a ∈ w.stack, a.Resting)
    (hnumbered : w.Numbered) : w.Tracked :=
  ⟨hcons, fun a ha => prepared_of_resting (hrest a (List.mem_of_mem_head? ha)),
    fun a ha => hrest a (List.mem_of_mem_tail ha), hnumbered⟩

theorem tracked_of_turn {φ : Type} {w : World} {frame : φ → Activation} {push : List φ} {rest : List Activation}
    (hcons : Consistent w.objects w.loop) (hstack : w.stack = push.map frame ++ rest)
    (hpush : ∀ g ∈ push, w.Prepared (frame g)) (htail : ∀ g ∈ push.tail, (frame g).Resting)
    (hrest : ∀ a ∈ rest, a.Resting) (hnumbered : w.Numbered) : w.Tracked := by
  refine ⟨hcons, hstack ▸ prepared_append (List.forall_mem_map.mpr hpush) hrest, ?_, hnumbered⟩
  intro a ha
  rw [hstack] at ha
  refine (Tcp.mem_tail_append ha).elim (fun ha => ?_) (hrest a)
  rw [← List.map_tail] at ha
  exact List.forall_mem_map.mpr htail a ha

section Turn

variable {w : World} {o : Nat} {rest : List Activation} {k : Kernel}

theorem applySocket_tracked {s : Tcp.Socket} {turn : Tcp.Turn Nat (Nat × List SocketAddress)} (h : w.Tracked)
    (ho : w.objects o = some (.socket s)) (hrest : ∀ a ∈ rest, a.Resting)
    (hcons : Consistent (afterSocket w.objects o turn.obj turn.notes) turn.loop)
    (hpush : ∀ g ∈ turn.push, turn.obj.Prepared turn.loop g) (htail : ∀ g ∈ turn.push.tail, g.Resting) :
    (w.applySocket o rest turn).Tracked := by
  refine tracked_of_turn hcons rfl (fun g hg s' hs' => ?_) htail hrest (h.numbered.applySocket ho rest turn)
  cases (afterSocket_self w.objects o turn.obj turn.notes).symm.trans hs'
  exact hpush g hg

theorem socket_tracked {s : Tcp.Socket} {f : Tcp.Frame} {turn : Tcp.Turn Nat (Nat × List SocketAddress)}
    (h : w.Tracked) (hok : w.KeepsWatches (.turn k)) (hst : w.stack = .socket o f :: rest) (ho : w.objects o = some (.socket s))
    (hturn : s.Executed o 0 w.loop f k turn) : (w.applySocket o rest turn).Tracked := by
  have hp : s.Prepared w.loop f := h.prepared (.socket o f) (by simp [hst]) s ho
  have hrest : ∀ a ∈ rest, a.Resting := by simpa [hst] using h.resting
  refine applySocket_tracked h ho hrest (h.consistent.socket ho hp (fun d addr hf => ?_) hturn)
    (Tcp.Socket.executed_prepared hturn hp) (Tcp.Socket.executed_plain hturn).push_resting
  exact hok (.socket o f) (by simp [hst]) (by rw [hf]; rfl)

theorem connectResolved_tracked {s : Tcp.Socket} (h : w.Tracked) (loop : EventLoop Nat (Nat × List SocketAddress))
    (hcons : Consistent w.objects loop) (ho : w.objects o = some (.socket s)) (addrs : List SocketAddress) :
    (w.applySocket o [] (Tcp.connectResolved loop s addrs)).Tracked := by
  have hheld : ∀ notes, heldBy (afterSocket w.objects o s notes) = heldBy w.objects := fun notes =>
    (heldBy_afterSocket w.objects o s notes).trans (heldBy_keep ho rfl)
  cases addrs with
  | nil =>
      refine applySocket_tracked h ho (by simp) (hcons.of_held (hheld _)) ?_ ?_
      · simp [Tcp.connectResolved, Tcp.Socket.fail, Tcp.Socket.emit, Tcp.Socket.Prepared]
      · simp [Tcp.connectResolved, Tcp.Socket.fail, Tcp.Socket.emit, Tcp.Frame.Resting]
  | cons addr addrs =>
      refine applySocket_tracked h ho (by simp) (hcons.of_held (hheld _)) ?_ ?_
      · simp [Tcp.connectResolved, Tcp.Socket.Prepared]
      · simp [Tcp.connectResolved]

theorem server_tracked {s : Tcp.Server Nat} {f : Tcp.Server.Frame}
    {turn : Tcp.Server.Turn Nat (Nat × List SocketAddress)} (h : w.Tracked) (hok : w.KeepsWatches (.turn k))
    (hst : w.stack = .server o f :: rest) (ho : w.objects o = some (.server s))
    (hturn : s.Executed o w.count w.loop f k turn) : ((w.made f).applyServer o rest turn).Tracked := by
  have hp : f.Prepared := h.prepared (.server o f) (by simp [hst])
  have hrest : ∀ a ∈ rest, a.Resting := by simpa [hst] using h.resting
  obtain ⟨hpush, htail⟩ := Tcp.Server.executed_prepared hturn hp
  have hcons := h.consistent.server ho (h.numbered _ (Nat.le_refl _)) hp (fun d hf => ?_) hturn
  · exact tracked_of_turn hcons rfl hpush htail hrest fun i hi =>
      (h.numbered.made f).update (made_objects h.numbered ho f) hi _
  · exact hok (.server o f) (by simp [hst]) (by rw [hf]; rfl)

theorem peer_tracked {p : Udp.Peer} {f : Udp.Peer.Frame} {turn : Udp.Peer.Turn Nat (Nat × List SocketAddress)}
    (h : w.Tracked) (hok : w.KeepsWatches (.turn k)) (hst : w.stack = .peer o f :: rest)
    (ho : w.objects o = some (.peer p)) (hturn : p.Executed o w.loop f k turn) :
    (w.applyPeer o rest turn).Tracked := by
  have hp : p.Prepared f := h.prepared (.peer o f) (by simp [hst]) p ho
  have hrest : ∀ a ∈ rest, a.Resting := by simpa [hst] using h.resting
  obtain ⟨hpush, htail⟩ := Udp.Peer.executed_prepared hturn hp
  refine tracked_of_turn (h.consistent.peer ho hp (fun hf => ?_) hturn) rfl (fun g hg p' hp' => ?_) htail hrest
    fun i hi => h.numbered.update ho hi _
  · exact hok (.peer o f) (by simp [hst]) (by rw [hf]; rfl)
  · simp only [applyPeer, Function.update_self, Option.some.injEq, Object.peer.injEq] at hp'
    exact hp' ▸ hpush g hg

end Turn

theorem step_tracked {w d : World} {a : Label} (h : w.Tracked) (hok : w.KeepsWatches a) (hd : w.step a = some d) :
    d.Tracked := by
  cases step_spec hd with
  | create hu =>
      have hnew : heldBy w.objects w.count = none := by simp [heldBy, h.numbered w.count (Nat.le_refl _)]
      exact tracked_of_resting (h.consistent.replace (h.consistent.sound.unnamed hnew) _) (h.resting_of_inUser hu)
        (h.numbered.add _)
  | @callSocket o _ c hu _ =>
      refine h.enter hu ?_ ?_ _ _ <;> cases c <;> simp [Tcp.Call.frames, Prepared, Tcp.Socket.Prepared]
  | @callServer o _ c hu _ =>
      refine h.enter hu ?_ ?_ _ _ <;> cases c <;> simp [Tcp.Server.Call.frames, Prepared, Tcp.Server.Frame.Prepared]
  | @callPeer o _ c hu _ =>
      refine h.enter hu ?_ ?_ _ _ <;> cases c <;> simp [Udp.Peer.Call.frames, Prepared, Udp.Peer.Prepared]
  | ret hst ha =>
      have hrest := h.resting
      rw [hst] at hrest
      exact tracked_of_resting h.consistent hrest h.numbered
  | socket hst ho hturn => exact socket_tracked h hok hst ho hturn
  | server hst ho hturn => exact server_tracked h hok hst ho hturn
  | peer hst ho hturn => exact peer_tracked h hok hst ho hturn
  | @io _ r o _ _ =>
      refine ⟨h.consistent, ?_, ?_, h.numbered⟩
      · intro a ha
        cases ho : w.objects o with
        | none => simp [dispatch, ho] at ha
        | some ob =>
            simp only [dispatch, ho, Option.map_some, Option.toList_some, List.head?_cons, Option.mem_some_iff] at ha
            subst ha
            cases ob <;> simp [Object.callback, Prepared, Tcp.Socket.Prepared, Tcp.Server.Frame.Prepared,
              Udp.Peer.Prepared]
      · cases ho : w.objects o <;> simp [dispatch, ho]
  | resolved ho => exact ⟨⟨h.consistent.sound, h.consistent.covered⟩, h.prepared, h.resting, h.numbered⟩
  | @deferred o addrs deferred _ _ _ ho =>
      exact connectResolved_tracked h { w.loop with deferred } ⟨h.consistent.sound, h.consistent.covered⟩ ho addrs
  | destruct hu ho hr =>
      exact tracked_of_resting (h.consistent.replace (h.consistent.sound.unnamed hok) _) (h.resting_of_inUser hu)
        fun i hi => h.numbered.update ho hi _

def Owned (w : World) (h : Handle) : Prop :=
  valid h = true ∧ ∃ o ob, w.objects o = some ob ∧ ob.handle = h

theorem Tracked.owned {w : World} (h : w.Tracked) {hd : Handle} (hw : hd ∈ w.loop.watches ∨ hd ∈ w.loop.poller.fds) :
    w.Owned hd := by
  have hw : hd ∈ w.loop.watches := hw.elim id (h.consistent.covered hd)
  obtain ⟨e, he⟩ := Option.isSome_iff_exists.mp (Std.ExtTreeMap.mem_iff_isSome_getElem?.mp hw)
  have hheld := h.consistent.sound hd e.cb (by simp [EventLoop.callback, he])
  obtain ⟨ob, ho, hr⟩ := Option.bind_eq_some_iff.mp hheld
  obtain ⟨hhandle, hv⟩ := Object.handle_of_registered hr
  exact ⟨hv, e.cb, ob, ho, hhandle⟩

/-- In every run of objects on one loop in which a descriptor is given up without
`unwatch`, by a destructor, a second `connect` or `listen`, or a failed open, only while
its object is not registered: every handle that is watched or polled is that of a
descriptor of a live object. -/
theorem no_stale_watch (wakeFd : Handle) {as : List Label} (hok : Along step KeepsWatches (create wakeFd) as) :
    Throughout step (fun w => ∀ h, h ∈ w.loop.watches ∨ h ∈ w.loop.poller.fds → w.Owned h) (create wakeFd) as := by
  have hstart : (create wakeFd).Tracked := by
    refine tracked_of_resting ⟨?_, ?_⟩ (by simp [create]) (create_numbered wakeFd)
    · intro k o hk
      simp [create, EventLoop.callback] at hk
    · intro h hh
      simp [create] at hh
  exact (throughout_of_along (I := Tracked) (fun _ _ _ => step_tracked) hstart hok).mono fun w hw h => hw.owned

/-- A server listens and accepts a connection, which the other side ends; the server is
closed, and both objects are destructed. -/
def servedRun : List Label :=
  let addr : SocketAddress := { address := "127.0.0.1", port := 80, family := 2 }
  [.create .server, .call 0 (.server (.listen 80 "localhost")), .turn (.resolved [addr]), .turn (.opened 5),
    .turn (.status .success), .turn (.status .success), .turn (.status .success), .turn (.endpoint addr), .ret,
    .io 5 { readable := true }, .turn (.accepted 7 addr), .turn (.status .success), .turn .none, .ret,
    .turn (.failed .again),
    .io 7 { readable := true }, .turn .none, .turn (.got []), .ret, .turn .none, .turn .none, .turn .none, .ret,
    .call 0 (.server .close), .turn .none, .ret, .destruct 0, .destruct 1]

theorem servedRun_owned :
    (run step (create 3) servedRun).isSome ∧
      Throughout step (fun w => ∀ h, h ∈ w.loop.watches ∨ h ∈ w.loop.poller.fds → w.Owned h) (create 3) servedRun :=
  ⟨by decide, no_stale_watch 3 (by decide)⟩

/-- A peer is bound, and its last `shared_ptr` is released. -/
def forgottenRun : List Label :=
  [.create (.peer "udp4"), .call 0 (.peer (.bind 0 "0.0.0.0")), .turn .none, .turn (.opened 5),
    .turn (.status .success), .turn (.status .success),
    .turn (.endpoint { address := "0.0.0.0", port := 4000, family := 2 }), .ret, .destruct 0]

/-- The descriptor is closed, and the loop goes on polling it. -/
theorem forgottenRun_stale :
    ∃ w, run step (create 3) forgottenRun = some w ∧ w.stack = [] ∧ 5 ∈ w.loop.watches ∧ 5 ∈ w.loop.poller.fds ∧
      ¬ w.Owned 5 := by
  have hend : (run step (create 3) forgottenRun).map
      (fun w => (w.stack, decide (5 ∈ w.loop.watches), decide (5 ∈ w.loop.poller.fds))) = some ([], true, true) := by
    decide
  have hgone : ∀ o, (run step (create 3) forgottenRun).map (·.objects o) = some none
    | 0 => by decide
    | _ + 1 => rfl
  obtain ⟨w, hw, hend⟩ := Option.map_eq_some_iff.mp hend
  simp only [Prod.mk.injEq, decide_eq_true_eq] at hend
  refine ⟨w, hw, hend.1, hend.2.1, hend.2.2, ?_⟩
  rintro ⟨-, o, ob, ho, -⟩
  have hnone := hgone o
  rw [hw, Option.map_some, ho] at hnone
  cases hnone

end World
end Protocol
end CxNetworking
