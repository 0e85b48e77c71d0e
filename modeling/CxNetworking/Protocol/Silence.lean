import CxNetworking.Protocol.Connections

/-! What an object emits after its 'close'. A closed server or peer has no descriptor and
no watch, so nothing runs it, unless it was closed in the middle of its own `accept_ready`
or `drain`: those go on with the descriptor that is no more. -/
namespace CxNetworking

/-- What a note is to the events that come after a 'close'. -/
inductive Mark where
  | event
  | close
  | reopen
  deriving DecidableEq, Repr

namespace Tcp.Server
open CxNetworking.Core

/-- 'connection' and 'error' are events; `listen` opens the server again. -/
def Note.mark {κ : Type} : Note κ → Option Mark
  | .emitted (.connection _) | .emitted (.error _) => some .event
  | .emitted .close => some .close
  | .called (.listen _ _) => some .reopen
  | .emitted .listening | .called .close => none

theorem executed_marks {κ δ : Type} {self conn : κ} {loop : EventLoop κ δ} {s : Server κ} {f : Frame}
    {answer : Kernel} {turn : Turn κ δ} (h : Executed self conn loop s f answer turn) :
    turn.notes.tail = [] ∧ ∀ n ∈ turn.notes, n.mark = some .close → f = .close := by
  cases h with
  | bindTo | listenOn | setNonblocking =>
      unfold require
      split <;> simp [fail, emit, Note.mark]
  | accept _ h =>
      rcases accept_cases h with ⟨d, peer, -, rfl⟩ | rfl | rfl | ⟨e, rfl⟩ <;> simp [fail, emit, Note.mark]
  | close =>
      unfold close
      split <;> simp [emit]
  | unresolved | resolved | notOpened | opened | store | acceptNonblocking | adopt | dropLocal =>
      simp [fail, emit, Server.store, Server.adopt, Note.mark]

end Tcp.Server

namespace Udp.Peer
open CxNetworking.Core

/-- 'message' and 'error' are events; `bind` and `send` open the peer again. -/
def Note.mark : Note → Option Mark
  | .emitted (.message _ _) | .emitted (.error _) => some .event
  | .emitted .close => some .close
  | .called (.bind _ _) | .called (.send _ _ _) => some .reopen
  | .emitted .listening | .called .close | .bind _ | .sendTo _ _ => none

theorem executed_marks {κ δ : Type} {self : κ} {loop : EventLoop κ δ} {p : Peer} {f : Frame} {answer : Kernel}
    {turn : Turn κ δ} (h : Executed self loop p f answer turn) :
    (∀ n ∈ turn.notes.tail, n.mark = none) ∧ ∀ n ∈ turn.notes, n.mark = some .close → f = .close := by
  cases h with
  | sendTo _ h => rcases sendTo_cases h with rfl | ⟨e, rfl⟩ <;> simp [noting, fail, emit, Note.mark]
  | drain _ h =>
      rcases drain_cases h with ⟨datagram, source, rfl⟩ | rfl | rfl | ⟨e, rfl⟩ <;> simp [fail, emit, Note.mark]
  | @readBack announce addr => cases announce <;> simp [readBack, emit, Note.mark]
  | close =>
      unfold close
      split <;> simp [emit]
  | bind | send | notOpened | opened | nonblocking | blocking | closeFailed | bound | notBound | unresolved
    | resolved => simp [noting, fail, emit, Note.mark]

end Udp.Peer

namespace Protocol
open CxNetworking.Core Execution

/-- What an entry of the log is to object `o`, a server or a peer. -/
def Entry.mark (o : Nat) : Entry → Option Mark
  | .socket _ _ => none
  | .server i n => if i = o then n.mark else none
  | .peer i n => if i = o then n.mark else none

/-- Object `o` has emitted 'close' and has not been opened again by a call. -/
def closedSince (o : Nat) : List Entry → Bool
  | [] => false
  | e :: earlier =>
    match e.mark o with
    | some .close => true
    | some .reopen => false
    | some .event | none => closedSince o earlier

/-- No event of object `o`, and no second 'close', comes while it is closed. -/
def Silent (o : Nat) : List Entry → Prop
  | [] => True
  | e :: earlier =>
    (e.mark o = some .event ∨ e.mark o = some .close → closedSince o earlier = false) ∧ Silent o earlier

instance decidableSilent (o : Nat) : ∀ log, Decidable (Silent o log)
  | [] => isTrue trivial
  | _ :: earlier =>
    have : Decidable (Silent o earlier) := decidableSilent o earlier
    inferInstanceAs (Decidable ((_ → _) ∧ Silent o earlier))

section Log

variable {o : Nat} {es log : List Entry}

theorem closedSince_append (h : ∀ e ∈ es, e.mark o = none) : closedSince o (es ++ log) = closedSince o log := by
  induction es with
  | nil => rfl
  | cons e es ih =>
      simp only [List.cons_append, closedSince, h e List.mem_cons_self]
      exact ih fun e he => h e (List.mem_cons_of_mem _ he)

theorem silent_append (h : ∀ e ∈ es, e.mark o = none) (hlog : Silent o log) : Silent o (es ++ log) := by
  induction es with
  | nil => exact hlog
  | cons e es ih =>
      refine ⟨?_, ih fun e he => h e (List.mem_cons_of_mem _ he)⟩
      simp [h e List.mem_cons_self]

theorem silent_turn (htail : ∀ e ∈ es.tail, e.mark o = none) (hopen : closedSince o log = false)
    (hlog : Silent o log) : Silent o (es ++ log) := by
  cases es with
  | nil => exact hlog
  | cons e es => exact ⟨fun _ => (closedSince_append htail).trans hopen, silent_append htail hlog⟩

theorem closedSince_turn (h : closedSince o (es ++ log) = true) :
    (∃ e ∈ es, e.mark o = some .close) ∨ closedSince o log = true := by
  induction es with
  | nil => exact .inr h
  | cons e es ih =>
      simp only [List.cons_append, closedSince] at h
      split at h
      · next hclose => exact .inl ⟨e, List.mem_cons_self, hclose⟩
      · cases h
      all_goals exact (ih h).imp_left fun ⟨e', he', hmark⟩ => ⟨e', List.mem_cons_of_mem _ he', hmark⟩

end Log

def Object.Dead : Object → Prop
  | .socket _ => False
  | .server s => valid s.fd = false
  | .peer p => valid p.fd = false

theorem Object.Dead.drop {ob : Object} (h : ob.Dead) (conn : Nat) : (ob.drop conn).Dead := by
  cases ob <;> exact h

namespace Activation

/-- Frames of a server or a peer that emit nothing while it has no descriptor. -/
def quiet : Activation → Bool
  | .server _ .user | .server _ .close | .server _ (.dropLocal _) => true
  | .peer _ .user | .peer _ .close | .peer _ .closeFailed => true
  | _ => false

def isClose : Activation → Bool
  | .server _ .close | .peer _ .close => true
  | _ => false

end Activation

namespace World

/-- Nothing will run object `o`. -/
structure Hushed (w : World) (o : Nat) : Prop where
  known : o < w.count
  dead : ∀ ob, w.objects o = some ob → ob.Dead
  frames : ∀ a ∈ w.stack, a.object = o → a.quiet = true
  unwatched : ∀ h, w.loop.callback h ≠ some o

structure Silenced (w : World) (o : Nat) : Prop where
  silent : Silent o w.log
  hushed : closedSince o w.log = true → w.Hushed o

/-- `close()` runs while no other method of the object is under way, `accept_ready` or
`drain` in particular, and the loop watches no other handle for the object than its
descriptor's. -/
def ClosesAlone (w : World) : Label → Prop
  | .turn _ => ∀ a ∈ w.stack.head?, a.isClose = true →
      (∀ b ∈ w.stack.tail, b.object = a.object → b.quiet = true) ∧
      ∀ e ∈ w.loop.watches.toList, e.2.cb = a.object → (w.objects a.object).map Object.handle = some e.1
  | _ => True

instance (w : World) (a : Label) : Decidable (w.ClosesAlone a) :=
  match a with
  | .turn _ => inferInstanceAs (Decidable (∀ a ∈ w.stack.head?, _ → _))
  | .create _ | .call _ _ | .ret | .io _ _ | .resolved _ _ | .deferred | .destruct _ => isTrue trivial

theorem ClosesAlone.handle {w : World} {k : Kernel} (h : w.ClosesAlone (.turn k)) {a : Activation}
    {rest : List Activation} (hst : w.stack = a :: rest) (ha : a.isClose = true) :
    (∀ b ∈ rest, b.object = a.object → b.quiet = true) ∧
    ∀ hd ob, w.objects a.object = some ob → w.loop.callback hd = some a.object → ob.handle = hd := by
  obtain ⟨hrest, hwatch⟩ := h a (by simp [hst]) ha
  rw [hst] at hrest
  refine ⟨hrest, fun hd ob hob hcb => ?_⟩
  obtain ⟨e, he, hcb⟩ := Option.map_eq_some_iff.mp hcb
  have hmem : (hd, e) ∈ w.loop.watches.toList := Std.ExtTreeMap.mem_toList_iff_getElem?_eq_some.mpr he
  have heq := hwatch (hd, e) hmem hcb
  rw [hob] at heq
  exact Option.some.inj heq

/-- A step of others: it adds no frame, no watch and no object under the number. -/
theorem Hushed.keep {w d : World} {o : Nat} (h : w.Hushed o) (hcount : w.count ≤ d.count)
    (hobjects : ∀ ob, d.objects o = some ob → ∃ ob₀, w.objects o = some ob₀ ∧ (ob₀.Dead → ob.Dead))
    (hstack : ∀ a ∈ d.stack, a.object = o → a ∈ w.stack ∨ a.quiet = true)
    (hloop : ∀ hd, d.loop.callback hd = some o → w.loop.callback hd = some o) : d.Hushed o := by
  refine ⟨Nat.lt_of_lt_of_le h.known hcount, fun ob hob => ?_, fun a ha hao => ?_, fun hd hcb => ?_⟩
  · obtain ⟨ob₀, hob₀, hdead⟩ := hobjects ob hob
    exact hdead (h.dead ob₀ hob₀)
  · exact (hstack a ha hao).elim (fun ha => h.frames a ha hao) id
  · exact h.unwatched hd (hloop hd hcb)

/-- `close()` leaves nothing that would run the object. -/
theorem hushed_of_close {w d : World} {o : Nat} {ob ob' : Object} {a user : Activation} {rest : List Activation}
    {k : Kernel} (hb : w.Numbered) (hok : w.ClosesAlone (.turn k)) (hst : w.stack = a :: rest) (ha : a.isClose = true)
    (hao : a.object = o) (ho : w.objects o = some ob) (hcount : d.count = w.count)
    (hobjects : d.objects = Function.update w.objects o (some ob')) (hdead : ob'.Dead)
    (hstack : d.stack = user :: rest) (huser : user.quiet = true) (hloop : d.loop = w.loop.unwatch ob.handle) :
    d.Hushed o := by
  obtain ⟨hrest, hwatch⟩ := hok.handle hst ha
  rw [hao] at hrest hwatch
  refine ⟨hcount ▸ hb.lt_of_live ho, fun ob₁ h₁ => ?_, fun b hbm hbo => ?_, fun hd hcb => ?_⟩
  · rw [hobjects, Function.update_self] at h₁
    exact Option.some.inj h₁ ▸ hdead
  · rw [hstack] at hbm
    rcases List.mem_cons.mp hbm with rfl | hbm
    · exact huser
    · exact hrest b hbm hbo
  · rw [hloop, EventLoop.callback_unwatch, Function.update_apply] at hcb
    split at hcb
    · cases hcb
    · next hne => exact hne (hwatch hd ob ho hcb).symm

theorem callback_of_watch {κ δ : Type} {l : EventLoop κ δ} {h k : Handle} {events : Interest} {cb o : κ} (hne : cb ≠ o)
    (hcb : (l.watch h events cb).callback k = some o) : l.callback k = some o := by
  rw [EventLoop.callback_watch, Function.update_apply] at hcb
  split at hcb
  · exact (hne (Option.some.inj hcb)).elim
  · exact hcb

theorem callback_of_unwatch {κ δ : Type} {l : EventLoop κ δ} {h k : Handle} {o : κ}
    (hcb : (l.unwatch h).callback k = some o) : l.callback k = some o := by
  rw [EventLoop.callback_unwatch, Function.update_apply] at hcb
  split at hcb
  · cases hcb
  · exact hcb

theorem Silenced.unmarked {w d : World} {o : Nat} (h : w.Silenced o) {es : List Entry} (hlog : d.log = es ++ w.log)
    (hes : ∀ e ∈ es, e.mark o = none) (hkeep : w.Hushed o → d.Hushed o) : d.Silenced o := by
  refine ⟨hlog ▸ silent_append hes h.silent, fun hclosed => hkeep (h.hushed ?_)⟩
  rwa [hlog, closedSince_append hes] at hclosed

theorem Silenced.unlogged {w d : World} {o : Nat} (h : w.Silenced o) (hlog : d.log = w.log)
    (hkeep : w.Hushed o → d.Hushed o) : d.Silenced o :=
  h.unmarked (hlog.trans (List.nil_append _).symm) (by simp) hkeep

theorem Silenced.of_other {w d : World} {o i : Nat} {es : List Entry} {push rest : List Activation} (h : w.Silenced o)
    (hne : i ≠ o) (hlog : d.log = es ++ w.log) (hes : ∀ e ∈ es, e.mark o = none) (hcount : w.count ≤ d.count)
    (hobjects : o < w.count → d.objects o = w.objects o) (hstack : d.stack = push ++ rest)
    (hpush : ∀ a ∈ push, a.object = i) (hrest : ∀ a ∈ rest, a ∈ w.stack)
    (hloop : o < w.count → ∀ hd, d.loop.callback hd = some o → w.loop.callback hd = some o) : d.Silenced o := by
  refine h.unmarked hlog hes fun hh => hh.keep hcount (fun ob hob => ?_) (fun a ha hao => ?_) (hloop hh.known)
  · exact ⟨ob, hobjects hh.known ▸ hob, id⟩
  · rw [hstack] at ha
    rcases List.mem_append.mp ha with ha | ha
    · exact (hne ((hpush a ha).symm.trans hao)).elim
    · exact .inl (hrest a ha)

/-- A turn of the object itself while it is not closed: only its last entry may be an event,
and only `close()` closes it. -/
theorem Silenced.of_open {w d : World} {o : Nat} {es : List Entry} (h : w.Silenced o)
    (hopen : closedSince o w.log = false) (hlog : d.log = es ++ w.log) (htail : ∀ e ∈ es.tail, e.mark o = none)
    (hclose : ∀ e ∈ es, e.mark o = some .close → d.Hushed o) : d.Silenced o := by
  refine ⟨hlog ▸ silent_turn htail hopen h.silent, fun hnow => ?_⟩
  rw [hlog] at hnow
  rcases closedSince_turn hnow with ⟨e, he, hmark⟩ | hnow
  · exact hclose e he hmark
  · cases hopen.symm.trans hnow

theorem made_spec (w : World) (f : Tcp.Server.Frame) :
    (w.made f).log = w.log ∧ w.count ≤ (w.made f).count ∧ ∀ o < w.count, (w.made f).objects o = w.objects o := by
  unfold made
  split
  · exact ⟨rfl, Nat.le_succ _, fun o ho => Function.update_of_ne (Nat.ne_of_lt ho) _ _⟩
  · exact ⟨rfl, Nat.le_refl _, fun o _ => rfl⟩

section Turn

variable {w : World} {o i : Nat} {rest : List Activation} {k : Kernel}

theorem applySocket_silenced {s : Tcp.Socket} {turn : Tcp.Turn Nat (Nat × List SocketAddress)} (h : w.Silenced o)
    (hi : w.objects i = some (.socket s)) (hrest : ∀ a ∈ rest, a ∈ w.stack)
    (hloop : i ≠ o → ∀ hd, turn.loop.callback hd = some o → w.loop.callback hd = some o) :
    (w.applySocket i rest turn).Silenced o := by
  refine h.unmarked rfl (by simp [Entry.mark]) fun hh => ?_
  have hne : i ≠ o := by
    rintro rfl
    exact hh.dead _ hi
  refine hh.keep (Nat.le_refl _) (fun ob hob => ?_) (fun a ha hao => ?_) (hloop hne)
  · simp only [applySocket, afterSocket] at hob
    split at hob
    · obtain ⟨ob₀, hob₀, rfl⟩ := Option.map_eq_some_iff.mp hob
      rw [Function.update_of_ne hne.symm] at hob₀
      exact ⟨ob₀, hob₀, fun hdead => hdead.drop i⟩
    · rw [Function.update_of_ne hne.symm] at hob
      exact ⟨ob, hob, id⟩
  · rcases List.mem_append.mp ha with ha | ha
    · obtain ⟨f, -, rfl⟩ := List.mem_map.mp ha
      exact (hne hao).elim
    · exact .inl (hrest a ha)

theorem socket_silenced {s : Tcp.Socket} {f : Tcp.Frame} {turn : Tcp.Turn Nat (Nat × List SocketAddress)}
    (h : w.Silenced o) (hst : w.stack = .socket i f :: rest) (hi : w.objects i = some (.socket s))
    (hturn : s.Executed i 0 w.loop f k turn) : (w.applySocket i rest turn).Silenced o := by
  refine applySocket_silenced h hi (fun a ha => hst ▸ List.mem_cons_of_mem _ ha) fun hne hd hcb => ?_
  cases Tcp.Socket.executed_registration hturn with
  | kept _ hloop | closed _ hloop | stored _ hloop => rwa [hloop] at hcb
  | raised _ hloop | lowered _ _ hloop => rwa [hloop, EventLoop.callback_modify] at hcb
  | unwatched _ hloop => exact callback_of_unwatch (hloop ▸ hcb)
  | watched _ hloop => exact callback_of_watch hne (hloop ▸ hcb)

theorem server_silenced_of_ne {s : Tcp.Server Nat} {f : Tcp.Server.Frame}
    {turn : Tcp.Server.Turn Nat (Nat × List SocketAddress)} (h : w.Silenced o) (hne : i ≠ o)
    (hst : w.stack = .server i f :: rest) (hturn : s.Executed i w.count w.loop f k turn) :
    ((w.made f).applyServer i rest turn).Silenced o := by
  obtain ⟨hlog, hcount, hobjects⟩ := w.made_spec f
  have hlog' : ((w.made f).applyServer i rest turn).log = turn.notes.map (.server i) ++ w.log := by
    rw [applyServer, hlog]
  refine h.of_other hne hlog' (by simp [Entry.mark, hne]) hcount (fun ho => ?_) rfl (by simp [Activation.object])
    (fun a ha => hst ▸ List.mem_cons_of_mem _ ha) fun ho hd hcb => ?_
  · simp only [applyServer, Function.update_of_ne hne.symm, hobjects o ho]
  · replace hcb : turn.loop.callback hd = some o := hcb
    cases Tcp.Server.executed_registration hturn with
    | kept _ _ hloop => rwa [hloop] at hcb
    | stored _ hloop => exact callback_of_watch hne (hloop ▸ hcb)
    | closed _ hloop => exact callback_of_unwatch (hloop ▸ hcb)
    | adopted _ hloop => exact callback_of_watch (Nat.ne_of_gt ho) (hloop ▸ hcb)

/-- A turn of the server itself: closed, it is at a `close()` that does nothing, or at the
end of a failed `listen`. -/
theorem server_silenced {s : Tcp.Server Nat} {f : Tcp.Server.Frame}
    {turn : Tcp.Server.Turn Nat (Nat × List SocketAddress)} (h : w.Silenced o) (hb : w.Numbered)
    (hok : w.ClosesAlone (.turn k)) (hst : w.stack = .server o f :: rest) (ho : w.objects o = some (.server s))
    (hturn : s.Executed o w.count w.loop f k turn) : ((w.made f).applyServer o rest turn).Silenced o := by
  cases hclosed : closedSince o w.log with
  | true =>
      have hh := h.hushed hclosed
      have hquiet : (Activation.server o f).quiet = true := hh.frames _ (by simp [hst]) rfl
      have hdead : valid s.fd = false := hh.dead _ ho
      have hstays : (w.applyServer o rest { loop := w.loop, obj := s }).Silenced o := by
        refine h.unlogged rfl fun hh => hh.keep (Nat.le_refl _) (fun ob hob => ?_) (fun a ha _ => ?_) fun hd hcb => hcb
        · simp only [applyServer, Function.update_self, Option.some.injEq] at hob
          exact ⟨_, ho, fun hd => hob ▸ hd⟩
        · exact .inl (hst ▸ List.mem_cons_of_mem _ ha)
      cases hturn with
      | close =>
          have hturn : s.close w.loop = { loop := w.loop, obj := s } := by simp [Tcp.Server.close, hdead]
          rw [hturn]
          exact hstays
      | dropLocal => exact hstays
      | _ => cases hquiet
  | false =>
      obtain ⟨htail, hclose⟩ := Tcp.Server.executed_marks hturn
      have hlog : ((w.made f).applyServer o rest turn).log = turn.notes.map (.server o) ++ w.log := by
        rw [applyServer, (w.made_spec f).1]
      refine h.of_open hclosed hlog (by simp [← List.map_tail, htail]) fun e he hmark => ?_
      obtain ⟨n, hn, rfl⟩ := List.mem_map.mp he
      simp only [Entry.mark, if_true] at hmark
      cases hclose n hn hmark
      cases hturn
      cases hv : valid s.fd with
      | false => simp [Tcp.Server.close, hv] at hn
      | true =>
          have hturn : s.close w.loop = Tcp.Server.emit (w.loop.unwatch s.fd) { s with fd := invalidHandle } .close [] := by
            simp [Tcp.Server.close, hv]
          rw [hturn]
          exact hushed_of_close hb hok hst rfl rfl ho rfl rfl (show valid invalidHandle = false by decide) rfl rfl rfl

theorem peer_silenced_of_ne {p : Udp.Peer} {f : Udp.Peer.Frame}
    {turn : Udp.Peer.Turn Nat (Nat × List SocketAddress)} (h : w.Silenced o) (hne : i ≠ o)
    (hst : w.stack = .peer i f :: rest) (hturn : p.Executed i w.loop f k turn) :
    (w.applyPeer i rest turn).Silenced o := by
  refine h.of_other hne rfl (by simp [Entry.mark, hne]) (Nat.le_refl _) (fun _ => ?_) rfl (by simp [Activation.object])
    (fun a ha => hst ▸ List.mem_cons_of_mem _ ha) fun _ hd hcb => ?_
  · simp only [applyPeer, Function.update_of_ne hne.symm]
  · replace hcb : turn.loop.callback hd = some o := hcb
    cases Udp.Peer.executed_registration hturn with
    | kept _ _ hloop | opened _ _ hloop | failed _ _ hloop => rwa [hloop] at hcb
    | reading _ _ _ hloop => exact callback_of_watch hne (hloop ▸ hcb)
    | closed _ hloop => exact callback_of_unwatch (hloop ▸ hcb)

/-- A turn of the peer itself: closed, it is at a `close()` that does nothing, or at the
end of a failed open. -/
theorem peer_silenced {p : Udp.Peer} {f : Udp.Peer.Frame} {turn : Udp.Peer.Turn Nat (Nat × List SocketAddress)}
    (h : w.Silenced o) (hb : w.Numbered) (hok : w.ClosesAlone (.turn k)) (hst : w.stack = .peer o f :: rest)
    (ho : w.objects o = some (.peer p)) (hturn : p.Executed o w.loop f k turn) :
    (w.applyPeer o rest turn).Silenced o := by
  cases hclosed : closedSince o w.log with
  | true =>
      have hh := h.hushed hclosed
      have hquiet : (Activation.peer o f).quiet = true := hh.frames _ (by simp [hst]) rfl
      have hdead : valid p.fd = false := hh.dead _ ho
      have hstays : ∀ p' : Udp.Peer, valid p'.fd = false →
          (w.applyPeer o rest { loop := w.loop, obj := p' }).Silenced o := by
        intro p' hp'
        refine h.unlogged rfl fun hh => hh.keep (Nat.le_refl _) (fun ob hob => ?_) (fun a ha _ => ?_) fun hd hcb => hcb
        · simp only [applyPeer, Function.update_self, Option.some.injEq] at hob
          exact ⟨_, ho, fun _ => hob ▸ hp'⟩
        · exact .inl (hst ▸ List.mem_cons_of_mem _ ha)
      cases hturn with
      | close =>
          have hturn : p.close w.loop = { loop := w.loop, obj := p } := by simp [Udp.Peer.close, hdead]
          rw [hturn]
          exact hstays p hdead
      | closeFailed => exact hstays _ (show valid invalidHandle = false by decide)
      | _ => cases hquiet
  | false =>
      obtain ⟨htail, hclose⟩ := Udp.Peer.executed_marks hturn
      have htail' : ∀ e ∈ (turn.notes.map (.peer o)).tail, Entry.mark o e = none := by
        rw [← List.map_tail]
        exact List.forall_mem_map.mpr fun n hn => by simp [Entry.mark, htail n hn]
      refine h.of_open hclosed rfl htail' fun e he hmark => ?_
      obtain ⟨n, hn, rfl⟩ := List.mem_map.mp he
      simp only [Entry.mark, if_true] at hmark
      cases hclose n hn hmark
      cases hturn
      cases hv : valid p.fd with
      | false => simp [Udp.Peer.close, hv] at hn
      | true =>
          have hturn : p.close w.loop =
              Udp.Peer.emit (w.loop.unwatch p.fd) { p with fd := invalidHandle, reading := false } .close [] := by
            simp [Udp.Peer.close, hv]
          rw [hturn]
          exact hushed_of_close hb hok hst rfl rfl ho rfl rfl (show valid invalidHandle = false by decide) rfl rfl rfl

end Turn

theorem call_silenced {w d : World} {o i : Nat} {e : Entry} {push : List Activation} (h : w.Silenced o)
    (hlog : d.log = e :: w.log) (hobjects : d.objects = w.objects) (hcount : d.count = w.count)
    (hloop : d.loop = w.loop) (hstack : d.stack = push ++ w.stack) (hpush : ∀ a ∈ push, a.object = i)
    (hmark : e.mark o = some .reopen ∨ e.mark o = none ∧ (w.Hushed o → i = o → ∀ a ∈ push, a.quiet = true)) :
    d.Silenced o := by
  rcases hmark with hmark | ⟨hmark, hquiet⟩
  · refine ⟨hlog ▸ ⟨by simp [hmark], h.silent⟩, fun hclosed => ?_⟩
    simp [hlog, closedSince, hmark] at hclosed
  · have hlog' : d.log = [e] ++ w.log := hlog
    refine h.unmarked hlog' (by simpa using hmark) fun hh => hh.keep (Nat.le_of_eq hcount.symm)
      (fun ob hob => ⟨ob, hobjects ▸ hob, id⟩) (fun a ha hao => ?_) fun hd hcb => hloop ▸ hcb
    rw [hstack] at ha
    rcases List.mem_append.mp ha with ha | ha
    · exact .inr (hquiet hh ((hpush a ha).symm.trans hao) a ha)
    · exact .inl ha

theorem callback_object (o : Nat) (r : Ready) (ob : Object) : (ob.callback o r).object = o := by
  cases ob <;> rfl

theorem step_silenced {w d : World} {a : Label} {o : Nat} (h : w.Silenced o) (hb : w.Numbered) (hok : w.ClosesAlone a)
    (hd : w.step a = some d) : d.Silenced o := by
  cases step_spec hd with
  | create =>
      refine h.unlogged rfl fun hh => hh.keep (Nat.le_succ _) (fun ob hob => ?_)
        (fun a ha _ => .inl ha) fun _ hcb => hcb
      simp only [add, Function.update_of_ne (Nat.ne_of_lt hh.known)] at hob
      exact ⟨ob, hob, id⟩
  | @callSocket i s c _ hi =>
      refine call_silenced (i := i) h rfl rfl rfl rfl rfl (by simp [Activation.object]) (.inr ⟨rfl, fun hh hio => ?_⟩)
      exact (hh.dead (.socket s) (hio ▸ hi)).elim
  | @callServer i s c _ hi =>
      refine call_silenced (i := i) h rfl rfl rfl rfl rfl (by simp [Activation.object]) ?_
      by_cases hio : i = o
      · cases c with
        | listen => exact .inl (by simp [Entry.mark, hio, Tcp.Server.Note.mark])
        | close => exact .inr ⟨by simp [Entry.mark, Tcp.Server.Note.mark], by simp [Tcp.Server.Call.frames, Activation.quiet]⟩
      · exact .inr ⟨by simp [Entry.mark, hio], fun _ heq => (hio heq).elim⟩
  | @callPeer i p c _ hi =>
      refine call_silenced (i := i) h rfl rfl rfl rfl rfl (by simp [Activation.object]) ?_
      by_cases hio : i = o
      · cases c with
        | bind | send => exact .inl (by simp [Entry.mark, hio, Udp.Peer.Note.mark])
        | close => exact .inr ⟨by simp [Entry.mark, Udp.Peer.Note.mark], by simp [Udp.Peer.Call.frames, Activation.quiet]⟩
      · exact .inr ⟨by simp [Entry.mark, hio], fun _ heq => (hio heq).elim⟩
  | ret hst =>
      refine h.unlogged rfl fun hh => hh.keep (Nat.le_refl _) (fun ob hob => ⟨ob, hob, id⟩)
        (fun a ha _ => ?_) fun _ hcb => hcb
      exact .inl (hst ▸ List.mem_cons_of_mem _ ha)
  | socket hst hi hturn => exact socket_silenced h hst hi hturn
  | @server i f rest s k turn hst hi hturn =>
      by_cases hio : i = o
      · subst hio
        exact server_silenced h hb hok hst hi hturn
      · exact server_silenced_of_ne h hio hst hturn
  | @peer i f rest p k turn hst hi hturn =>
      by_cases hio : i = o
      · subst hio
        exact peer_silenced h hb hok hst hi hturn
      · exact peer_silenced_of_ne h hio hst hturn
  | @io k r i hst hcb =>
      refine h.unlogged rfl fun hh => hh.keep (Nat.le_refl _) (fun ob hob => ⟨ob, hob, id⟩)
        (fun a ha hao => ?_) fun _ hcb => hcb
      obtain ⟨ob, -, rfl⟩ := Option.map_eq_some_iff.mp (Option.mem_toList.mp ha)
      rw [callback_object] at hao
      exact (hh.unwatched k (hao ▸ hcb)).elim
  | resolved =>
      exact h.unlogged rfl fun hh => hh.keep (Nat.le_refl _) (fun ob hob => ⟨ob, hob, id⟩)
        (fun a ha _ => .inl ha) fun _ hcb => hcb
  | deferred hst _ hi =>
      refine applySocket_silenced h hi (by simp) fun _ hd hcb => ?_
      rwa [Tcp.connectResolved_loop] at hcb
  | @destruct i ob _ hi =>
      refine h.unlogged rfl fun hh => hh.keep (Nat.le_refl _) (fun ob hob => ?_)
        (fun a ha _ => .inl ha) fun _ hcb => hcb
      simp only [Function.update_apply] at hob
      split at hob
      · cases hob
      · exact ⟨ob, hob, id⟩

/-- In every run of objects on one loop in which `close()` of a server or a peer runs while
no other method of it is under way and the loop watches no other handle for it: between
its 'close' and the next call of `listen`, `bind` or `send`, the object emits no
'connection', 'message', 'error' or 'close'. -/
theorem silent_after_close (wakeFd : Handle) {as : List Label} {w : World}
    (hok : Along step ClosesAlone (create wakeFd) as) (h : run step (create wakeFd) as = some w) (o : Nat) :
    Silent o w.log := by
  have hstart : (create wakeFd).Numbered ∧ (create wakeFd).Silenced o := by
    refine ⟨create_numbered wakeFd, trivial, fun hclosed => ?_⟩
    cases hclosed
  refine ((throughout_of_along (I := fun w : World => w.Numbered ∧ w.Silenced o) ?_ hstart hok).last h).2.silent
  rintro w a d ⟨hb, hs⟩ ha hd
  exact ⟨step_numbered hb hd, step_silenced hs hb ha hd⟩

def localhost : SocketAddress := { address := "127.0.0.1", port := 4000, family := 2 }

/-- A peer is made and bound to descriptor 5. -/
def boundPeer : List Label :=
  [.create (.peer "udp4"), .call 0 (.peer (.bind 4000 "127.0.0.1")), .turn .none, .turn (.opened 5),
    .turn (.status .success), .turn (.status .success), .turn (.endpoint localhost), .ret]

/-- It gets a datagram, and is closed twice afterwards. -/
def closedAfterwards : List Label :=
  boundPeer ++ [.io 5 { readable := true }, .turn (.received [1] localhost), .ret, .turn (.failed .again),
    .call 0 (.peer .close), .turn .none, .ret, .call 0 (.peer .close), .turn .none]

theorem closedAfterwards_silent :
    ∃ w, run step (create 3) closedAfterwards = some w ∧ .peer 0 (.emitted .close) ∈ w.log ∧ Silent 0 w.log := by
  have hclose : (run step (create 3) closedAfterwards).map (fun w => decide (.peer 0 (.emitted .close) ∈ w.log)) =
      some true := by
    decide +kernel
  obtain ⟨w, hw, hclose⟩ := Option.map_eq_some_iff.mp hclose
  exact ⟨w, hw, of_decide_eq_true hclose, silent_after_close 3 (by decide +kernel) hw 0⟩

/-- The listener of 'message' calls `close()`. -/
def closedInMessage : List Label :=
  boundPeer ++ [.io 5 { readable := true }, .turn (.received [1] localhost), .call 0 (.peer .close), .turn .none, .ret,
    .ret, .turn (.failed .badFileDescriptor)]

/-- A server accepts a connection, and the listener of 'connection' calls `close()`. -/
def closedInConnection : List Label :=
  [.create .server, .call 0 (.server (.listen 4000 "localhost")), .turn (.resolved [localhost]), .turn (.opened 5),
    .turn (.status .success), .turn (.status .success), .turn (.status .success), .turn (.endpoint localhost), .ret,
    .io 5 { readable := true }, .turn (.accepted 7 localhost), .turn (.status .success), .turn .none,
    .call 0 (.server .close), .turn .none, .ret, .ret, .turn (.failed .badFileDescriptor)]

/-- Both go on with an invalid descriptor, and emit 'error' after 'close'. -/
theorem closedInListener_error :
    (∃ w, run step (create 3) closedInMessage = some w ∧ ¬ Silent 0 w.log ∧
      w.log.take 2 = [.peer 0 (.emitted (.error (.system "recvfrom" .badFileDescriptor))), .peer 0 (.emitted .close)]) ∧
    ∃ w, run step (create 3) closedInConnection = some w ∧ ¬ Silent 0 w.log ∧
      w.log.take 2 = [.server 0 (.emitted (.error (.system "accept" .badFileDescriptor))), .server 0 (.emitted .close)] := by
  have hmessage : (run step (create 3) closedInMessage).map (fun w => (decide (Silent 0 w.log), w.log.take 2)) =
      some (false, [.peer 0 (.emitted (.error (.system "recvfrom" .badFileDescriptor))), .peer 0 (.emitted .close)]) := by
    decide +kernel
  have hconnection : (run step (create 3) closedInConnection).map (fun w => (decide (Silent 0 w.log), w.log.take 2)) =
      some (false, [.server 0 (.emitted (.error (.system "accept" .badFileDescriptor))), .server 0 (.emitted .close)]) := by
    decide +kernel
  obtain ⟨w, hw, hfacts⟩ := Option.map_eq_some_iff.mp hmessage
  obtain ⟨v, hv, hfacts'⟩ := Option.map_eq_some_iff.mp hconnection
  simp only [Prod.mk.injEq, decide_eq_false_iff_not] at hfacts hfacts'
  exact ⟨⟨w, hw, hfacts⟩, v, hv, hfacts'⟩

end World
end Protocol
end CxNetworking
