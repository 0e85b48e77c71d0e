import CxNetworking.Core.Descriptor
import CxNetworking.Protocol.Connections

/-! The descriptors of the sockets, servers and peers of one loop. Each object owns one in
a member, and a method that opens one keeps it in a local variable until it is stored or,
when the method returns early, closed. What the owners do to the table of the kernel is
written here beside the turns. -/
namespace CxNetworking
open CxNetworking.Core

/-! ### What a turn does to the table -/

def Tcp.Frame.locals : Tcp.Frame → List Handle
  | .setNonblocking d _ | .connectTo d _ | .storeConnect d _ | .dropLocal d => [d]
  | _ => []

def Tcp.Server.Frame.locals : Tcp.Server.Frame → List Handle
  | .bindTo d _ | .listenOn d | .setNonblocking d | .store d | .acceptNonblocking d _ | .adopt d _ | .dropLocal d => [d]
  | _ => []

def Tcp.Socket.files (s : Tcp.Socket) (files : Files) : Tcp.Frame → Kernel → Files
  | .openSocket _, .opened d => files.make d
  | .storeConnect _ _, _ | .closeDesc, _ => files.reset s.desc
  | .dropLocal d, _ => files.reset d
  | _, _ => files

def Tcp.Server.files (fd : Handle) (files : Files) : Tcp.Server.Frame → Kernel → Files
  | .openSocket _, .opened d | .accept, .accepted d _ => files.make d
  | .acceptNonblocking d _, .status e => if e = .success then files else files.reset d
  | .store _, _ | .close, _ => files.reset fd
  | .dropLocal d, _ => files.reset d
  | _, _ => files

def Udp.Peer.files (p : Udp.Peer) (files : Files) : Udp.Peer.Frame → Kernel → Files
  | .openSocket _, .opened d => (files.make d).reset p.fd
  | .closeFailed, _ | .close, _ => files.reset p.fd
  | _, _ => files

def Core.Kernel.gives : Kernel → Option Handle
  | .opened d | .accepted d _ => some d
  | _ => Option.none

/-- What a turn does to the member of its object and to the local variables. -/
inductive Handover (files : Files) (fd : Handle) : List Handle → Files → Handle → List Handle → Prop
  | kept {locals} : Handover files fd locals files fd locals
  | made {d} : d ∉ files.table → valid d = true → Handover files fd [] (files.make d) fd [d]
  | dropped {d} : Handover files fd [d] (files.reset d) fd []
  | stored {d} : Handover files fd [d] (files.reset fd) d []
  | cleared : Handover files fd [] (files.reset fd) invalidHandle []
  | replaced {d} : d ∉ files.table → valid d = true → Handover files fd [] ((files.make d).reset fd) d []

theorem Handover.kept_books {files files' : Files} {fd fd' : Handle} {locals locals' rest : List Handle}
    {fds : Nat → Option Handle} {o : Nat} (h : Handover files fd locals files' fd' locals')
    (hk : files.Kept fds (locals ++ rest)) (ho : fds o = some fd) :
    files'.Kept (Function.update fds o (some fd')) (locals' ++ rest) := by
  have hsame : Function.update fds o (some fd) = fds := by rw [← ho, Function.update_eq_self]
  cases h with
  | kept =>
      rw [hsame]
      exact hk
  | made hnew hv =>
      rw [hsame]
      exact hk.make hnew hv
  | @dropped d =>
      have hv := hk.valid d List.mem_cons_self
      rw [hsame, Files.reset, if_pos hv]
      exact hk.close
  | stored => exact hk.assign ho
  | cleared => exact hk.reset ho Owners.filter_invalid
  | replaced hnew hv => exact (hk.make hnew hv).assign ho

/-! ### The turns of the objects -/

namespace Tcp.Socket

variable {κ δ : Type} {self : κ} {t : Nat} {loop : EventLoop κ δ} {s : Socket} {f : Frame} {k : Kernel}
  {turn : Turn κ δ} {files : Files}

theorem readHalf_locals (r : Ready) : (readHalf r).flatMap Frame.locals = [] := by
  rcases readHalf_eq r with h | h <;> rw [h] <;> rfl

theorem afterPump_handover (s' : Socket) (notes : List Note) (k : Caller)
    (hdesc : s'.desc = s.desc) :
    Handover files s.desc [] files (afterPump t loop s' notes k).obj.desc
      ((afterPump t loop s' notes k).push.flatMap Frame.locals) := by
  rw [← hdesc]
  rcases afterPump_cases t loop s' k notes with ⟨-, -, h⟩ | ⟨-, -, h⟩ | ⟨r, -, -, h⟩ | ⟨r, -, -, h⟩ <;> rw [h]
  · exact .kept
  · exact .kept
  · change Handover files s'.desc [] files s'.desc ((readHalf r).flatMap Frame.locals)
    rw [readHalf_locals]
    exact .kept
  · exact .kept

theorem pumpOutput_handover (s' : Socket) (notes : List Note) (k : Caller) (hdesc : s'.desc = s.desc) :
    Handover files s.desc [] files (pumpOutput t loop s' notes k).obj.desc
      ((pumpOutput t loop s' notes k).push.flatMap Frame.locals) := by
  rw [← hdesc]
  rcases pumpOutput_cases t loop s' k notes with ⟨-, h⟩ | ⟨-, push, h, ⟨-, rfl⟩ | ⟨r, -, rfl⟩⟩ <;> rw [h] <;> exact .kept

theorem executed_handover (h : Executed self t loop s f k turn) (hnew : ∀ d, k.gives = some d → d ∉ files.table) :
    Handover files s.desc f.locals (s.files files f k) turn.obj.desc (turn.push.flatMap Frame.locals) := by
  cases h with
  | @write chunk =>
      rcases write_cases t loop s chunk with ⟨-, h⟩ | ⟨-, -, h⟩ | ⟨-, -, h⟩ <;> rw [h]
      · exact .kept
      · exact .kept
      · exact pumpOutput_handover _ _ _ rfl
  | pump _ h =>
      rcases pump_cases h with ⟨n, -, -, rfl⟩ | rfl | rfl | ⟨e, rfl⟩
      · exact pumpOutput_handover _ _ _ rfl
      · exact afterPump_handover _ _ _ rfl
      · exact .kept
      · exact .kept
  | relock => exact afterPump_handover _ _ _ rfl
  | pumpOutput => exact pumpOutput_handover _ _ _ rfl
  | recv _ h => rcases recv_cases h with rfl | ⟨chunk, rfl⟩ | rfl | rfl | ⟨e, rfl⟩ <;> exact .kept
  | afterConnect =>
      rw [afterConnect]
      split <;> exact .kept
  | @afterDrain r =>
      change Handover files s.desc [] files s.desc ((readHalf r).flatMap Frame.locals)
      rw [readHalf_locals]
      exact .kept
  | @onIo r =>
      have hlocals : (s.onIo r).flatMap Frame.locals = [] := by
        rw [Socket.onIo]
        split
        · rfl
        · split
          · rfl
          · exact readHalf_locals r
        · rfl
        · rfl
      change Handover files s.desc [] files s.desc ((s.onIo r).flatMap Frame.locals)
      rw [hlocals]
      exact .kept
  | closeBegin =>
      have hlocals : (closeBegin loop s).push.flatMap Frame.locals = [] := by
        rw [closeBegin]
        split <;> rfl
      rw [hlocals]
      exact .kept
  | opened hv => exact .made (hnew _ rfl) hv
  | closeDesc => exact .cleared
  | storeConnect => exact .stored
  | dropLocal => exact .dropped
  | raise | halfClose | connected | refused | setOpen | lowerConnected | lowerDrained | closeUnwatch | notOpened
    | nonblocking | blocking | connecting | unreachable | watchConnect => exact .kept

end Tcp.Socket

namespace Tcp.Server

variable {κ δ : Type} {self conn : κ} {loop : EventLoop κ δ} {s : Server κ} {f : Frame} {k : Kernel}
  {turn : Turn κ δ} {files : Files}

theorem require_handover (call : String) (e : Errc) (next : Frame) (d : Handle) (hnext : next.locals = [d]) :
    Handover files s.fd [d] files (require loop s call e d next).obj.fd
      ((require loop s call e d next).push.flatMap Frame.locals) := by
  rw [require]
  split
  · rw [List.flatMap_singleton, hnext]
    exact .kept
  · exact .kept

/-- All turns but the one that makes a socket of the descriptor. -/
theorem executed_handover (h : Executed self conn loop s f k turn) (hnew : ∀ d, k.gives = some d → d ∉ files.table)
    (hf : accepted f = none) :
    Handover files s.fd f.locals (Server.files s.fd files f k) turn.obj.fd (turn.push.flatMap Frame.locals) := by
  cases h with
  | opened hv => exact .made (hnew _ rfl) hv
  | bindTo | listenOn | setNonblocking => exact require_handover _ _ _ _ rfl
  | store => exact .stored
  | close =>
      change Handover files s.fd [] (files.reset s.fd) _ _
      rw [close]
      split
      next => exact .cleared
      next hv =>
        rw [Files.reset, if_neg hv]
        exact .kept
  | accept _ h =>
      unfold accept at h
      split at h
      · obtain ⟨hv, h⟩ := Option.ite_none_right_eq_some.mp h
        cases h
        exact .made (hnew _ rfl) hv
      · split at h
        · cases h
          exact .kept
        · split at h <;> cases h <;> exact .kept
      · cases h
  | @acceptNonblocking d peer e =>
      change Handover files s.fd [d] (if e = .success then files else files.reset d) s.fd
        ((if e = .success then [.adopt d peer] else [.accept] : List Frame).flatMap Frame.locals)
      split
      · exact .kept
      · exact .dropped
  | adopt => cases hf
  | dropLocal => exact .dropped
  | unresolved | resolved | notOpened => exact .kept

end Tcp.Server

namespace Udp.Peer

variable {κ δ : Type} {self : κ} {loop : EventLoop κ δ} {p : Peer} {f : Frame} {k : Kernel} {turn : Turn κ δ}
  {files : Files}

theorem executed_handover (h : Executed self loop p f k turn) (hnew : ∀ d, k.gives = some d → d ∉ files.table) :
    Handover files p.fd [] (p.files files f k) turn.obj.fd [] := by
  cases h with
  | opened hv => exact .replaced (hnew _ rfl) hv
  | closeFailed => exact .cleared
  | close =>
      change Handover files p.fd [] (files.reset p.fd) _ _
      rw [close]
      split
      next => exact .cleared
      next hv =>
        rw [Files.reset, if_neg hv]
        exact .kept
  | sendTo _ h => rcases sendTo_cases h with rfl | ⟨e, rfl⟩ <;> exact .kept
  | drain _ h => rcases drain_cases h with ⟨datagram, source, rfl⟩ | rfl | rfl | ⟨e, rfl⟩ <;> exact .kept
  | @readBack announce addr =>
      rcases readBack_cases self loop p addr announce with ⟨push, notes, -, ⟨-, h⟩ | ⟨-, h⟩⟩ <;> rw [h] <;> exact .kept
  | bind | send | notOpened | nonblocking | blocking | bound | notBound | unresolved | resolved => exact .kept

end Udp.Peer

/-! ### The objects of a loop -/

namespace Protocol

/-- The objects of a loop with the descriptors of the process. -/
structure Host where
  world : World
  files : Files := {}

def Activation.locals : Activation → List Handle
  | .socket _ f => f.locals
  | .server _ f => f.locals
  | .peer _ _ => []

def World.fds (w : World) (o : Nat) : Option Handle := (w.objects o).map Object.handle

namespace Host

variable {h h' : Host} {a : Label} {wakeFd : Handle}

/-- The eventfd of the poller is open as long as the loop is there. -/
def start (wakeFd : Handle) : Host where
  world := .create wakeFd
  files := if valid wakeFd then ({} : Files).make wakeFd else {}

def fresh (h : Host) : Label → Bool
  | .turn k => k.gives.all fun d => d ∉ h.files.table
  | _ => true

def after (h : Host) : Label → Files
  | .turn k =>
    match h.world.stack with
    | .socket o f :: _ =>
      match h.world.objects o with
      | some (.socket s) => s.files h.files f k
      | _ => h.files
    | .server o f :: _ =>
      match h.world.objects o with
      | some (.server s) => Tcp.Server.files s.fd h.files f k
      | _ => h.files
    | .peer o f :: _ =>
      match h.world.objects o with
      | some (.peer p) => p.files h.files f k
      | _ => h.files
    | [] => h.files
  | .destruct o =>
    match h.world.fds o with
    | some fd => h.files.reset fd
    | none => h.files
  | _ => h.files

def step (h : Host) (a : Label) : Option Host :=
  if h.fresh a then (h.world.step a).map fun world => { world, files := h.after a } else none

def wake (wakeFd : Handle) : List Handle := if valid wakeFd then [wakeFd] else []

structure Kept (wakeFd : Handle) (h : Host) : Prop where
  books : h.files.Kept h.world.fds (h.world.stack.flatMap Activation.locals ++ wake wakeFd)
  numbered : h.world.Numbered

theorem kept_start (wakeFd : Handle) : Kept wakeFd (start wakeFd) where
  books := by
    have hnone : (World.create wakeFd).fds = fun _ => none := rfl
    change (start wakeFd).files.Kept (World.create wakeFd).fds (wake wakeFd)
    rw [hnone, start, wake]
    split
    next hv => exact Files.Kept.start.make (by simp) hv
    next => exact Files.Kept.start
  numbered := World.create_numbered wakeFd

theorem fds_afterSocket (objects : Nat → Option Object) (o : Nat) (s : Tcp.Socket) (notes : List Tcp.Note) :
    (fun i => (World.afterSocket objects o s notes i).map Object.handle) =
      Function.update (fun i => (objects i).map Object.handle) o (some s.desc) := by
  have hdrop (ob : Object) : (ob.drop o).handle = ob.handle := by cases ob <;> rfl
  have hupdate : (fun i => (Function.update objects o (some (.socket s)) i).map Object.handle) =
      Function.update (fun i => (objects i).map Object.handle) o (some s.desc) :=
    Function.comp_update (Option.map Object.handle) objects o (some (.socket s))
  rw [World.afterSocket]
  split
  · rw [← hupdate]
    funext i
    rw [Option.map_map]
    exact congrArg (Option.map · _) (funext hdrop)
  · exact hupdate

theorem fds_update (objects : Nat → Option Object) (o : Nat) (x : Option Object) :
    (fun i => (Function.update objects o x i).map Object.handle) =
      Function.update (fun i => (objects i).map Object.handle) o (x.map Object.handle) :=
  Function.comp_update (Option.map Object.handle) objects o x

theorem flatMap_locals {φ : Type} {frame : φ → Activation} {l : φ → List Handle} (push : List φ)
    (hframe : ∀ g, (frame g).locals = l g) (rest : List Activation) :
    (push.map frame ++ rest).flatMap Activation.locals = push.flatMap l ++ rest.flatMap Activation.locals := by
  rw [List.flatMap_append, List.flatMap_map]
  exact congrArg (· ++ _) (congrArg (List.flatMap · push) (funext hframe))

section Steps

variable {w : World} {files files' : Files} {o : Nat} {rest : List Activation} {l : List Handle}

theorem flatMap_top {a : Activation} (hst : w.stack = a :: rest) :
    w.stack.flatMap Activation.locals ++ wake wakeFd = a.locals ++ (rest.flatMap Activation.locals ++ wake wakeFd) := by
  rw [hst, List.flatMap_cons, List.append_assoc]

theorem applySocket_books {s : Tcp.Socket} {turn : Tcp.Turn Nat (Nat × List SocketAddress)}
    (hb : files.Kept w.fds (l ++ (rest.flatMap Activation.locals ++ wake wakeFd)))
    (ho : w.objects o = some (.socket s))
    (hturn : Handover files s.desc l files' turn.obj.desc (turn.push.flatMap Tcp.Frame.locals)) :
    files'.Kept (w.applySocket o rest turn).fds
      ((w.applySocket o rest turn).stack.flatMap Activation.locals ++ wake wakeFd) := by
  have hfds : (w.applySocket o rest turn).fds = Function.update w.fds o (some turn.obj.desc) :=
    fds_afterSocket w.objects o turn.obj turn.notes
  have hstack : (w.applySocket o rest turn).stack = turn.push.map (.socket o) ++ rest := rfl
  rw [hfds, hstack, flatMap_locals turn.push (fun _ => rfl), List.append_assoc]
  exact hturn.kept_books hb (congrArg (Option.map Object.handle) ho)

theorem applyServer_books {s : Tcp.Server Nat} {turn : Tcp.Server.Turn Nat (Nat × List SocketAddress)}
    (hb : files.Kept w.fds (l ++ (rest.flatMap Activation.locals ++ wake wakeFd)))
    (ho : w.objects o = some (.server s))
    (hturn : Handover files s.fd l files' turn.obj.fd (turn.push.flatMap Tcp.Server.Frame.locals)) :
    files'.Kept (w.applyServer o rest turn).fds
      ((w.applyServer o rest turn).stack.flatMap Activation.locals ++ wake wakeFd) := by
  have hfds : (w.applyServer o rest turn).fds = Function.update w.fds o (some turn.obj.fd) :=
    fds_update w.objects o (some (.server turn.obj))
  have hstack : (w.applyServer o rest turn).stack = turn.push.map (.server o) ++ rest := rfl
  rw [hfds, hstack, flatMap_locals turn.push (fun _ => rfl), List.append_assoc]
  exact hturn.kept_books hb (congrArg (Option.map Object.handle) ho)

theorem applyPeer_books {p : Udp.Peer} {turn : Udp.Peer.Turn Nat (Nat × List SocketAddress)}
    (hb : files.Kept w.fds (rest.flatMap Activation.locals ++ wake wakeFd)) (ho : w.objects o = some (.peer p))
    (hturn : Handover files p.fd [] files' turn.obj.fd []) :
    files'.Kept (w.applyPeer o rest turn).fds
      ((w.applyPeer o rest turn).stack.flatMap Activation.locals ++ wake wakeFd) := by
  have hfds : (w.applyPeer o rest turn).fds = Function.update w.fds o (some turn.obj.fd) :=
    fds_update w.objects o (some (.peer turn.obj))
  have hstack : (w.applyPeer o rest turn).stack = turn.push.map (.peer o) ++ rest := rfl
  have hpush : turn.push.flatMap (fun _ => ([] : List Handle)) = [] := by simp
  rw [hfds, hstack, flatMap_locals (l := fun _ => []) turn.push (fun _ => rfl), hpush]
  exact hturn.kept_books hb (congrArg (Option.map Object.handle) ho)

theorem held_count (hw : w.Numbered) : Files.held w.fds w.count = none := by
  rw [Files.held, World.fds, hw w.count (Nat.le_refl _)]
  rfl

/-- The turns of a server. The socket that is made of a local descriptor is there before
the server's own part. -/
theorem server_books {s : Tcp.Server Nat} {f : Tcp.Server.Frame} {k : Kernel}
    {turn : Tcp.Server.Turn Nat (Nat × List SocketAddress)} (hw : w.Numbered)
    (hb : files.Kept w.fds (f.locals ++ (rest.flatMap Activation.locals ++ wake wakeFd)))
    (ho : w.objects o = some (.server s)) (hturn : s.Executed o w.count w.loop f k turn)
    (hnew : ∀ d, k.gives = some d → d ∉ files.table) :
    (Tcp.Server.files s.fd files f k).Kept ((w.made f).applyServer o rest turn).fds
      (((w.made f).applyServer o rest turn).stack.flatMap Activation.locals ++ wake wakeFd) := by
  cases hf : Tcp.Server.accepted f with
  | none =>
      have hmade : w.made f = w := by rw [World.made, hf]
      rw [hmade]
      exact applyServer_books hb ho (Tcp.Server.executed_handover hturn hnew hf)
  | some conn =>
      cases hturn with
      | @adopt d peer =>
          cases hf
          have hb' : files.Kept (w.add (.socket { state := .open, desc := d, peer })).fds
              (rest.flatMap Activation.locals ++ wake wakeFd) := by
            have hfds : (w.add (.socket { state := .open, desc := d, peer })).fds =
                Function.update w.fds w.count (some d) := fds_update w.objects w.count _
            rw [hfds]
            exact hb.store (held_count hw)
          have ho' : (w.add (.socket { state := .open, desc := d, peer })).objects o = some (.server s) :=
            (Function.update_of_ne (Nat.ne_of_lt (hw.lt_of_live ho)) _ _).trans ho
          exact applyServer_books (l := []) hb' ho' .kept
      | _ => cases hf

theorem books_of_eq {w' : World} (hb : files.Kept w.fds (w.stack.flatMap Activation.locals ++ wake wakeFd))
    (hobjects : w'.objects = w.objects)
    (hlocals : w'.stack.flatMap Activation.locals = w.stack.flatMap Activation.locals) :
    files.Kept w'.fds (w'.stack.flatMap Activation.locals ++ wake wakeFd) := by
  have hfds : w'.fds = w.fds := by
    funext i
    rw [World.fds, World.fds, hobjects]
  rw [hfds, hlocals]
  exact hb

end Steps

theorem step_kept (hh : h.Kept wakeFd) (hs : h.step a = some h') : h'.Kept wakeFd := by
  obtain ⟨hfresh, hs⟩ := Option.ite_none_right_eq_some.mp hs
  obtain ⟨w, hw, rfl⟩ := Option.map_eq_some_iff.mp hs
  refine ⟨?_, World.step_numbered hh.numbered hw⟩
  have hnew {k : Kernel} (hk : a = .turn k) (d : Handle) (hd : k.gives = some d) : d ∉ h.files.table := by
    subst hk
    simpa [fresh, hd] using hfresh
  have hbooks := hh.books
  cases World.step_spec hw with
  | @create k =>
      have hfds : (h.world.add k.object).fds = Function.update h.world.fds h.world.count (some k.object.handle) :=
        fds_update h.world.objects h.world.count _
      have hk : k.object.handle = invalidHandle := by cases k <;> rfl
      change h.files.Kept (h.world.add k.object).fds _
      rw [hfds, hk]
      exact hbooks.hollow (held_count hh.numbered) Owners.filter_invalid
  | @callSocket _ _ c =>
      apply books_of_eq hbooks
      · rfl
      · cases c <;> rfl
  | @callServer _ _ c | @callPeer _ _ c =>
      apply books_of_eq hbooks
      · rfl
      · cases c <;> rfl
  | @ret top rest hst hu =>
      have htop : top.locals = [] := by
        cases top with
        | socket o f => cases f <;> first | rfl | cases hu
        | server o f => cases f <;> first | rfl | cases hu
        | peer o f => rfl
      apply books_of_eq hbooks
      · rfl
      · rw [hst, List.flatMap_cons, htop, List.nil_append]
  | socket hst ho hturn =>
      rw [flatMap_top hst] at hbooks
      simp only [after, hst, ho]
      exact applySocket_books hbooks ho (Tcp.Socket.executed_handover hturn (hnew rfl))
  | server hst ho hturn =>
      rw [flatMap_top hst] at hbooks
      simp only [after, hst, ho]
      exact server_books hh.numbered hbooks ho hturn (hnew rfl)
  | peer hst ho hturn =>
      rw [flatMap_top hst] at hbooks
      simp only [after, hst, ho]
      exact applyPeer_books hbooks ho (Udp.Peer.executed_handover hturn (hnew rfl))
  | @io _ r o hst _ =>
      apply books_of_eq hbooks
      · rfl
      · rw [hst, World.dispatch]
        cases h.world.objects o with
        | none => rfl
        | some ob => cases ob <;> rfl
  | resolved => exact books_of_eq hbooks rfl rfl
  | @deferred o addrs deferred s hst _ ho =>
      rw [hst] at hbooks
      apply applySocket_books (l := []) hbooks ho
      cases addrs <;> exact .kept
  | @destruct o ob _ ho _ =>
      have hfd : h.world.fds o = some ob.handle := congrArg (Option.map Object.handle) ho
      have hafter : h.after (.destruct o) = h.files.reset ob.handle := by simp only [after, hfd]
      have hfds : ({ h.world with objects := Function.update h.world.objects o none } : World).fds =
          Function.update h.world.fds o none := fds_update h.world.objects o none
      rw [hafter, hfds]
      exact hbooks.reset hfd rfl

/-- The descriptors of all the sockets, servers and peers of a loop, in every run in which
the kernel gives out numbers that are not in use. None is closed twice or by another than
its owner, none is lost: the open ones are the eventfd, those in a member of a live object
and those in a local variable of a method under way, each in one place only. -/
theorem descriptors_owned {as : List Label} (hr : Execution.run step (start wakeFd) as = some h) :
    h.files.stray = [] ∧
      (∀ fd, h.files.opened.count fd = h.files.closed.count fd + if fd ∈ h.files.table then 1 else 0) ∧
      (∀ fd, fd ∈ h.files.table ↔
        fd ∈ h.world.stack.flatMap Activation.locals ++ wake wakeFd ∨
          ∃ o ob, h.world.objects o = some ob ∧ ob.handle = fd ∧ valid fd = true) ∧
      (h.world.stack.flatMap Activation.locals ++ wake wakeFd).Nodup ∧
      ∀ o ob, h.world.objects o = some ob → valid ob.handle = true →
        ob.handle ∉ h.world.stack.flatMap Activation.locals ++ wake wakeFd ∧
          ∀ o' ob', h.world.objects o' = some ob' → ob'.handle = ob.handle → o' = o := by
  have hb := (Execution.run_invariant (fun _ _ _ hi hs => step_kept hi hs) (kept_start wakeFd) hr).books
  have hheld {o : Nat} {fd : Handle} : Files.held h.world.fds o = some fd ↔
      ∃ ob, h.world.objects o = some ob ∧ ob.handle = fd ∧ valid fd = true := by
    rw [Files.held_eq_some, World.fds, Option.map_eq_some_iff]
    constructor
    · rintro ⟨⟨ob, ho, he⟩, hv⟩
      exact ⟨ob, ho, he, hv⟩
    · rintro ⟨ob, ho, he, hv⟩
      exact ⟨⟨ob, ho, he⟩, hv⟩
  refine ⟨hb.clean, ?_, ?_, hb.owned.loose_nodup, ?_⟩
  · intro fd
    rw [hb.balance fd, hb.owned.nodup.count]
  · intro fd
    rw [hb.owned.mem_iff]
    simp only [hheld]
  · intro o ob ho hv
    have hmine := hheld.mpr ⟨ob, ho, rfl, hv⟩
    refine ⟨hb.owned.apart o _ hmine, ?_⟩
    intro o' ob' ho' he
    exact hb.owned.alone o' o _ (hheld.mpr ⟨ob', ho', he, hv⟩) hmine

/-- A server accepts a connection and is closed. The next server gets its number, and its
`bind` fails: the number is still in use while the listeners of 'error' run. -/
def reopenedRun : List Label :=
  World.listening ++ [.io 4 { readable := true }, .turn (.accepted 5 World.loopback), .turn (.status .success),
    .turn .none, .ret, .turn (.failed .again), .call 0 (.server .close), .turn .none, .ret, .create .server,
    .call 2 (.server (.listen 81 "localhost")), .turn (.resolved [World.loopback]), .turn (.opened 4),
    .turn (.status ⟨98⟩)]

theorem reopenedRun_owned :
    ∃ h, Execution.run step (start 3) reopenedRun = some h ∧ h.files.table = [4, 5, 3] ∧ h.files.stray = [] ∧
      h.files.opened.count 4 = 2 ∧ 4 ∈ h.world.stack.flatMap Activation.locals ++ wake 3 ∧
      (h.world.stack.flatMap Activation.locals ++ wake 3).Nodup := by
  refine ⟨_, rfl, rfl, ?_, rfl, by decide, ?_⟩
  · exact (descriptors_owned (rfl : Execution.run step (start 3) reopenedRun = _)).1
  · exact (descriptors_owned (rfl : Execution.run step (start 3) reopenedRun = _)).2.2.2.1

/-- A server on handle 4 accepts socket 1 on handle 5, whose `write` leaves a backlog. -/
def backloggedRun : List Label :=
  World.listening ++ [.io 4 { readable := true }, .turn (.accepted 5 World.loopback), .turn (.status .success),
    .turn .none, .call 1 (.socket (.write [7])), .turn .none, .turn (.failed .again), .turn .none, .ret, .turn (.failed .again)]

/-- Both handles are ready. The server accepts socket 2, whose listener destroys socket 1,
and then socket 3 on handle 5; what was reported for socket 1 goes to it. -/
def reusedHandle : List Label :=
  [.io 4 { readable := true }, .turn (.accepted 6 World.loopback), .turn (.status .success), .turn .none,
    .call 1 (.socket .destroy), .turn .none, .turn .none, .turn .none, .ret, .ret, .turn (.accepted 5 World.loopback),
    .turn (.status .success), .turn .none, .ret, .turn (.failed .again), .io 5 { writable := true }, .turn .none,
    .turn .none, .turn .none]

def dispatched (as : List Label) : List Event :=
  as.filterMap fun
    | .io handle what => some { handle, what }
    | _ => none

def ofSocket (h : Host) (i : Nat) : List Tcp.Note :=
  h.world.log.filterMap fun
    | .socket o n => if o = i then some n else none
    | _ => none

/-- `::poll` reports writability where write interest is registered, and no more; yet a
socket that has written nothing emits 'drain'. -/
theorem reusedHandle_drains :
    ∃ h d, Execution.run step (start 3) backloggedRun = some h ∧ h.world.stack = [] ∧
      h.world.loop.poller.pollfds =
        [{ fd := 3, events := POLLIN }, { fd := 4, events := POLLIN }, { fd := 5, events := POLLIN ||| POLLOUT }] ∧
      dispatched reusedHandle = translate (report h.world.loop.poller.pollfds [POLLIN, POLLIN, POLLOUT]) ∧
      Execution.run step h reusedHandle = some d ∧ d.ofSocket 3 = [.emitted .drain] := by
  refine ⟨_, _, rfl, rfl, by decide +kernel, by decide +kernel, rfl, by decide +kernel⟩

end Host
end Protocol
end CxNetworking
