import CxNetworking.Dns.Service
import CxNetworking.Udp.Calls

/-! `listen` as a whole: what `bind` of the peer does, and the event of the server that
comes of it. -/
namespace CxNetworking.Dns
open CxNetworking.Core CxNetworking.Udp Execution

theorem emission_append (notes earlier : List Peer.Note) :
    emission (notes ++ earlier) = (emission notes).or (emission earlier) := by
  induction notes with
  | nil => rfl
  | cons n notes ih => cases n <;> first | rfl | exact ih

theorem executed_emission {κ δ : Type} {self : κ} {loop : EventLoop κ δ} {p : Peer} {f : Peer.Frame} {k : Kernel}
    {turn : Peer.Turn κ δ} (h : p.Executed self loop f k turn) :
    emission turn.notes = none ∨ ∃ e rest, emission turn.notes = some e ∧ turn.push = .user :: rest := by
  cases h with
  | bind | send | opened | nonblocking | closeFailed | bound | resolved => exact .inl rfl
  | notOpened | blocking | notBound | unresolved => exact .inr ⟨_, _, rfl, rfl⟩
  | sendTo _ h =>
      rcases Peer.sendTo_cases h with rfl | ⟨e, rfl⟩
      · exact .inl rfl
      · exact .inr ⟨_, _, rfl, rfl⟩
  | @readBack announce addr =>
      cases announce with
      | true => exact .inr ⟨_, _, rfl, rfl⟩
      | false => exact .inl rfl
  | close =>
      unfold Peer.close
      split
      · exact .inr ⟨_, _, rfl, rfl⟩
      · exact .inl rfl
  | drain _ h =>
      rcases Peer.drain_cases h with ⟨datagram, source, rfl⟩ | rfl | rfl | ⟨e, rfl⟩
      · exact .inr ⟨_, _, rfl, rfl⟩
      · exact .inl rfl
      · exact .inl rfl
      · exact .inr ⟨_, _, rfl, rfl⟩

namespace Service

/-- What a call of the peer has done so far to the service it started in. -/
structure Follows (s : Service) (rest : List ServiceFrame) (u : Peer.Turn Unit Unit) (d : Service) : Prop where
  state : d = s.applyPeer rest u
  silent : emission u.notes = none ∨ u.push.head? = some .user

theorem step_follows {s d : Service} {rest : List ServiceFrame} {u t : Peer.Turn Unit Unit} {f : Peer.Frame}
    {frames : List Peer.Frame} {k : Kernel} (h : s.Follows rest u d) (hpush : u.push = f :: frames)
    (ht : u.obj.exec () u.loop f k = some t) :
    ∃ e, d.step (.turn k) = some e ∧
      s.Follows rest { t with push := t.push ++ frames, notes := t.notes ++ u.notes } e := by
  have hquiet : emission u.notes = none := by
    rcases h.silent with hquiet | huser
    · exact hquiet
    · obtain rfl : f = .user := by simpa [hpush] using huser
      cases ht
  obtain rfl := h.state
  have hstep : (s.applyPeer rest u).step (.turn k) =
      some ((s.applyPeer rest u).applyPeer (frames.map .peer ++ rest) t) := by
    simp [step, turn, applyPeer, hquiet, hpush, ht]
  refine ⟨_, hstep, ?_, ?_⟩
  · rcases executed_emission (Peer.exec_spec ht) with hnone | ⟨e, later, he, hlater⟩
    · simp [applyPeer, emission_append, hquiet, hnone]
    · simp only [applyPeer, emission_append, hquiet, he, hlater]
      cases e <;> simp [emit, listeners]
  · rcases executed_emission (Peer.exec_spec ht) with hnone | ⟨e, later, -, hlater⟩
    · exact .inl (by simp [emission_append, hnone, hquiet])
    · exact .inr (by simp [hlater])

theorem listen_performs {s : Service} {port : UInt16} {address : String} {ks : List Kernel}
    {turn : Peer.Turn Unit Unit} (hu : s.inUser = true)
    (h : Peer.perform () s.loop s.peer [.bind port address] ks = some turn) :
    run step s (.listen port address :: ks.map .turn) =
      some ({ s with subscriptions := s.subscriptions + 1 }.applyPeer s.stack turn) := by
  let start : Peer.Turn Unit Unit := { loop := s.loop, obj := s.peer, push := [.bind port address] }
  have hlisten : s.step (.listen port address) = some (s.listen port address) := by simp [step, hu]
  have hstart : Follows { s with subscriptions := s.subscriptions + 1 } s.stack start (s.listen port address) :=
    ⟨rfl, .inl rfl⟩
  obtain ⟨d, hd, hfollows⟩ := Peer.perform_run (u := start) step_follows hstart h
  have hd : run step (s.listen port address) (ks.map .turn) =
      some ({ s with subscriptions := s.subscriptions + 1 }.applyPeer s.stack turn) := by
    simpa [start, hfollows.state] using hd
  exact run_cons.mpr ⟨_, hlisten, hd⟩

/-- The event of the server that a subscription passes on. -/
def passedOn : Peer.Emission → Option ServerEvent
  | .listening => some .listening
  | .error f => some (.peerError f)
  | .message _ _ | .close => none

theorem turn_passedOn (s : Service) (rest : List ServiceFrame) {turn : Peer.Turn Unit Unit} {e : Peer.Emission}
    {event : ServerEvent} (he : emission turn.notes = some e) (hevent : passedOn e = some event) (k : Kernel) :
    ∃ d, ({ s with subscriptions := s.subscriptions + 1 }.applyPeer rest turn).step (.turn k) = some d ∧
      d.log = .emitted event none :: s.log := by
  simp only [applyPeer, he]
  cases e with
  | listening | error => cases hevent; exact ⟨_, rfl, rfl⟩
  | message | close => cases hevent

theorem listen_emits {s : Service} {port : UInt16} {address : String} {ks : List Kernel}
    {turn : Peer.Turn Unit Unit} (hu : s.inUser = true)
    (h : Peer.perform () s.loop s.peer [.bind port address] ks = some turn) (k : Kernel) :
    ∃ d e, run step s (.listen port address :: ks.map .turn ++ [.turn k]) = some d ∧
      d.log = .emitted e none :: s.log ∧
      ((∃ f, e = .peerError f) ↔ ∃ f, .emitted (.error f) ∈ turn.notes) ∧
      (e = .listening ↔ .emitted .listening ∈ turn.notes) := by
  have hrun := listen_performs hu h
  rcases Peer.bind_performs h with ⟨-, f, earlier, hnotes, hsilent⟩ | ⟨-, hnotes⟩
  · obtain ⟨d, hd, hlog⟩ := turn_passedOn s s.stack (by rw [hnotes]; rfl) rfl k
    refine ⟨d, .peerError f, run_append hrun (run_cons.mpr ⟨d, hd, rfl⟩), hlog, ?_⟩
    simp [hnotes, hsilent]
  · obtain ⟨d, hd, hlog⟩ := turn_passedOn s s.stack (by rw [hnotes]; rfl) rfl k
    refine ⟨d, .listening, run_append hrun (run_cons.mpr ⟨d, hd, rfl⟩), hlog, ?_⟩
    simp [hnotes]

end Service

/-- `listen` emits 'error' and not 'listening', or its `bind` passes the kernel the endpoint
it was told. -/
def ListensOrFails (net : Inet) (d : Domain) (port : UInt16) (address : String) (turn : Peer.Turn Unit Unit)
    (e : ServerEvent) : Prop :=
  (∃ f, e = .peerError f) ∨
    ∃ addr, .bind addr ∈ turn.notes ∧ Peer.denoted net d port address = some (net.toSockaddr addr)

/-- `bind` of a peer, and with it `listen`, binds where it was told or emits 'error' exactly
when `socket`, `fcntl` or `bind` of the system fails or the string is an address of the
peer's family. -/
theorem bind_listen_iff (net : Inet) (port : UInt16) (address : String) :
    (∀ {κ δ : Type} (self : κ) (loop : EventLoop κ δ) (p : Peer) (ks : List Kernel) (turn : Peer.Turn κ δ),
      Peer.perform self loop p [.bind port address] ks = some turn →
      (Peer.BindsOrFails net p.family port address turn ↔
        ks.any Kernel.fails = true ∨ (Peer.denoted net p.family port address).isSome = true)) ∧
    ∀ (s : Service) (ks : List Kernel) (turn : Peer.Turn Unit Unit) (k : Kernel), s.inUser = true →
      Peer.perform () s.loop s.peer [.bind port address] ks = some turn →
      ∃ d e, run Service.step s (.listen port address :: ks.map .turn ++ [.turn k]) = some d ∧
        d.log = .emitted e none :: s.log ∧
        (ListensOrFails net s.peer.family port address turn e ↔
          ks.any Kernel.fails = true ∨ (Peer.denoted net s.peer.family port address).isSome = true) := by
  refine ⟨fun self loop p ks turn h => Peer.bindsOrFails_iff net h, fun s ks turn k hu h => ?_⟩
  obtain ⟨d, e, hrun, hlog, herror, hlistening⟩ := Service.listen_emits hu h k
  refine ⟨d, e, hrun, hlog, ?_⟩
  rw [← Peer.bindsOrFails_iff net h]
  constructor
  · rintro (hfailed | hbinds)
    · obtain ⟨f, hf⟩ := herror.mp hfailed
      obtain ⟨g, rfl⟩ := hfailed
      exact .inl ⟨f, hf, mt hlistening.mpr (by simp)⟩
    · exact .inr hbinds
  · rintro (⟨f, hf, -⟩ | hbinds)
    · exact .inl (herror.mpr ⟨f, hf⟩)
    · exact .inr hbinds

def bindAnswers : List Kernel :=
  [.none, .opened 5, .status .success, .status .success, .endpoint { address := "", port := 53 }]

theorem numeric_binds :
    ∃ turn, Peer.perform () (Service.create 3).loop (Service.create 3).peer [.bind 53 "127.0.0.1"] bindAnswers =
        some turn ∧ Peer.BindsOrFails Inet.numeric .inet 53 "127.0.0.1" turn ∧
      ∃ d e, run Service.step (Service.create 3) (.listen 53 "127.0.0.1" :: bindAnswers.map .turn ++ [.turn .none]) =
          some d ∧ d.log = [.emitted e none] ∧ ListensOrFails Inet.numeric .inet 53 "127.0.0.1" turn e := by
  obtain ⟨turn, hturn⟩ : ∃ turn, Peer.perform () (Service.create 3).loop (Service.create 3).peer
      [.bind 53 "127.0.0.1"] bindAnswers = some turn := ⟨_, rfl⟩
  have hdenoted : (Peer.denoted Inet.numeric .inet 53 "127.0.0.1").isSome = true := by decide +kernel
  have hall := bind_listen_iff Inet.numeric 53 "127.0.0.1"
  obtain ⟨d, e, hrun, hlog, hlistens⟩ := hall.2 (Service.create 3) bindAnswers turn .none rfl hturn
  exact ⟨turn, hturn, (hall.1 () _ _ bindAnswers turn hturn).mpr (.inr hdenoted), d, e, hrun, hlog,
    hlistens.mpr (.inr hdenoted)⟩

/-- A name that is no address opens the port on every interface, and 'listening' is emitted. -/
theorem hostName_binds_any :
    ∃ turn, Peer.perform () (Service.create 3).loop (Service.create 3).peer [.bind 53 "localhost"] bindAnswers =
        some turn ∧
      Peer.denoted Inet.numeric .inet 53 "localhost" = none ∧
      (∃ addr, turn.notes = [.emitted .listening, .bind addr] ∧
        Inet.numeric.toSockaddr addr = .in4 (htons 53) Domain.inet.any) ∧
      ¬ Peer.BindsOrFails Inet.numeric .inet 53 "localhost" turn ∧
      ∃ d, run Service.step (Service.create 3) (.listen 53 "localhost" :: bindAnswers.map .turn ++ [.turn .none]) =
          some d ∧ d.log = [.emitted .listening none] ∧
        ¬ ListensOrFails Inet.numeric .inet 53 "localhost" turn .listening := by
  have hdenoted : Peer.denoted Inet.numeric .inet 53 "localhost" = none := by decide +kernel
  refine ⟨_, rfl, hdenoted, ⟨_, rfl, by decide +kernel⟩, ?_, _, rfl, rfl, ?_⟩
  · rintro (⟨f, -, hsilent⟩ | ⟨addr, -, haddr⟩)
    · exact hsilent (.head _)
    · rw [hdenoted] at haddr
      cases haddr
  · rintro (⟨f, ⟨⟩⟩ | ⟨addr, -, haddr⟩)
    rw [hdenoted] at haddr
    cases haddr

end CxNetworking.Dns
