import CxNetworking.Core.Endpoint
import CxNetworking.Lib.Execution
import CxNetworking.Udp.Peer

/-! A call of a peer as a whole. The turns of a call follow each other until it returns or
calls a listener, and neither `bind` nor `send` does anything that matters here behind its
first listener. -/
namespace CxNetworking.Udp
open CxNetworking.Core Execution

namespace Peer

variable {κ δ : Type} {self : κ}

/-- The frames of a call run with these answers of the system, up to its end or to the first
listener. -/
def perform (self : κ) : EventLoop κ δ → Peer → List Frame → List Kernel → Option (Turn κ δ)
  | loop, p, [], [] => some { loop, obj := p }
  | loop, p, .user :: rest, [] => some { loop, obj := p, push := .user :: rest }
  | loop, p, f :: rest, k :: ks =>
    (p.exec self loop f k).bind fun t =>
      (perform self t.loop t.obj (t.push ++ rest) ks).map fun u => { u with notes := u.notes ++ t.notes }
  | _, _, _, _ => none

variable {loop : EventLoop κ δ} {p : Peer} {ks : List Kernel} {turn : Turn κ δ}

theorem perform_nil (h : perform self loop p [] ks = some turn) : ks = [] ∧ turn = { loop, obj := p } := by
  cases ks with
  | nil => exact ⟨rfl, (Option.some.inj h).symm⟩
  | cons k ks => cases h

theorem perform_user {rest : List Frame} (h : perform self loop p (.user :: rest) ks = some turn) :
    ks = [] ∧ turn = { loop, obj := p, push := .user :: rest } := by
  cases ks with
  | nil => exact ⟨rfl, (Option.some.inj h).symm⟩
  | cons k ks =>
      obtain ⟨t, ht, -⟩ := Option.bind_eq_some_iff.mp h
      cases ht

theorem perform_cons (self : κ) (loop : EventLoop κ δ) (p : Peer) (f : Frame) (rest : List Frame) (k : Kernel)
    (ks : List Kernel) :
    perform self loop p (f :: rest) (k :: ks) = (p.exec self loop f k).bind fun t =>
      (perform self t.loop t.obj (t.push ++ rest) ks).map fun u => { u with notes := u.notes ++ t.notes } := by
  cases f <;> rfl

theorem perform_frame {f : Frame} {rest : List Frame} (hf : f ≠ .user)
    (h : perform self loop p (f :: rest) ks = some turn) :
    ∃ k ks' t u, ks = k :: ks' ∧ Executed self loop p f k t ∧
      perform self t.loop t.obj (t.push ++ rest) ks' = some u ∧ turn = { u with notes := u.notes ++ t.notes } := by
  cases ks with
  | nil =>
      cases f with
      | user => exact (hf rfl).elim
      | _ => cases h
  | cons k ks =>
      rw [perform_cons] at h
      obtain ⟨t, ht, h⟩ := Option.bind_eq_some_iff.mp h
      obtain ⟨u, hu, rfl⟩ := Option.map_eq_some_iff.mp h
      exact ⟨k, ks, t, u, rfl, exec_spec ht, hu, rfl⟩

/-- A system whose steps follow the turns of a peer follows its calls; `u` is what the call
has done so far. -/
theorem perform_run {σ ℓ : Type} {step : σ → ℓ → Option σ} {label : Kernel → ℓ} {R : Turn κ δ → σ → Prop}
    (hstep : ∀ {u s f rest k t}, R u s → u.push = f :: rest → u.obj.exec self u.loop f k = some t →
      ∃ d, step s (label k) = some d ∧ R { t with push := t.push ++ rest, notes := t.notes ++ u.notes } d)
    {u : Turn κ δ} {s : σ} (hs : R u s) (h : perform self u.loop u.obj u.push ks = some turn) :
    ∃ d, run step s (ks.map label) = some d ∧ R { turn with notes := turn.notes ++ u.notes } d := by
  induction ks generalizing u s turn with
  | nil =>
      refine ⟨s, rfl, ?_⟩
      cases hpush : u.push with
      | nil =>
          obtain ⟨-, rfl⟩ := perform_nil (hpush ▸ h)
          simpa [← hpush] using hs
      | cons f rest =>
          by_cases hf : f = .user
          · subst hf
            obtain ⟨-, rfl⟩ := perform_user (hpush ▸ h)
            simpa [← hpush] using hs
          · obtain ⟨k, ks, t, v, ⟨⟩, -⟩ := perform_frame hf (hpush ▸ h)
  | cons k ks ih =>
      cases hpush : u.push with
      | nil =>
          obtain ⟨⟨⟩, -⟩ := perform_nil (hpush ▸ h)
      | cons f rest =>
          rw [hpush, perform_cons] at h
          obtain ⟨t, ht, h⟩ := Option.bind_eq_some_iff.mp h
          obtain ⟨v, hv, rfl⟩ := Option.map_eq_some_iff.mp h
          obtain ⟨d, hd, hR⟩ := hstep hs hpush ht
          obtain ⟨e, he, hR⟩ := ih hR hv
          exact ⟨e, run_cons.mpr ⟨d, hd, he⟩, by simpa using hR⟩

def Unresolved (ks : List Kernel) : Prop := ∀ addrs, .resolved addrs ∉ ks

/-- `open_socket` at the start of a call fails, emits 'error' and ends it, or the call goes on. -/
theorem opening_performs {k : Opening} (h : perform self loop p (p.opening k) ks = some turn) :
    (∃ f, turn.notes = [.emitted (.error f)] ∧ Unresolved ks ∧ ks.any Kernel.fails = true) ∨
      ∃ ks₁ ks₂ q, ks = ks₁ ++ ks₂ ∧ Unresolved ks₁ ∧ ks₁.any Kernel.fails = false ∧ q.family = p.family ∧
        perform self loop q [k.next] ks₂ = some turn := by
  unfold opening at h
  split at h
  · exact .inr ⟨[], ks, p, rfl, by simp [Unresolved], rfl, rfl, h⟩
  · obtain ⟨a, ks, t, u, rfl, ht, hu, rfl⟩ := perform_frame (by simp) h
    cases ht with
    | notOpened =>
        obtain ⟨rfl, rfl⟩ := perform_user hu
        exact .inl ⟨_, rfl, by simp [Unresolved], rfl⟩
    | @opened _ d _ =>
        obtain ⟨b, ks, t, v, rfl, ht, hv, rfl⟩ := perform_frame (by simp) hu
        cases ht with
        | nonblocking =>
            refine .inr ⟨[_, _], ks, { p with fd := d }, rfl, by simp [Unresolved], rfl, rfl, ?_⟩
            simpa using hv
        | blocking he =>
            obtain ⟨rfl, rfl⟩ := perform_user hv
            exact .inl ⟨_, rfl, by simp [Unresolved], by simp [Kernel.fails, he]⟩

theorem bindTo_performs {addr : SocketAddress} (h : perform self loop p [.bindTo addr] ks = some turn) :
    (ks.any Kernel.fails = true ∧ ∃ f, turn.notes = [.emitted (.error f), .bind addr]) ∨
      ks.any Kernel.fails = false ∧ turn.notes = [.emitted .listening, .bind addr] := by
  obtain ⟨a, ks, t, u, rfl, ht, hu, rfl⟩ := perform_frame (by simp) h
  cases ht with
  | bound =>
      obtain ⟨b, ks, t, v, rfl, ht, hv, rfl⟩ := perform_frame (by simp) hu
      cases ht
      obtain ⟨rfl, rfl⟩ := perform_user hv
      exact .inr ⟨rfl, rfl⟩
  | notBound he =>
      obtain ⟨rfl, rfl⟩ := perform_user hu
      exact .inl ⟨by simp [Kernel.fails, he], _, rfl⟩

/-- A `bind` emits 'error' when `socket`, `fcntl` or `bind` of the system fails. Otherwise it
passes its address to the kernel and emits 'listening'. -/
theorem bind_performs {port : UInt16} {address : String}
    (h : perform self loop p [.bind port address] ks = some turn) :
    (ks.any Kernel.fails = true ∧
      ∃ f earlier, turn.notes = .emitted (.error f) :: earlier ∧ .emitted .listening ∉ earlier) ∨
      ks.any Kernel.fails = false ∧ turn.notes = [.emitted .listening, .bind (p.bindAddress port address)] := by
  obtain ⟨a, ks, t, u, rfl, ht, hu, rfl⟩ := perform_frame (by simp) h
  cases ht
  rw [List.append_nil] at hu
  have hfails : (.none :: ks).any Kernel.fails = ks.any Kernel.fails := rfl
  rw [hfails]
  rcases opening_performs hu with ⟨f, hnotes, -, hks⟩ | ⟨ks₁, ks₂, q, rfl, -, hks, -, hq⟩
  · exact .inl ⟨hks, f, [], by simp [hnotes]⟩
  · rw [List.any_append, hks, Bool.false_or]
    rcases bindTo_performs hq with ⟨hks, f, hnotes⟩ | ⟨hks, hnotes⟩
    · exact .inl ⟨hks, f, [.bind (p.bindAddress port address)], by simp [hnotes]⟩
    · exact .inr ⟨hks, by simp [hnotes]⟩

/-- The notes of a call that passes the datagram to `send_to`, which may fail. -/
def Passes (turn : Turn κ δ) (datagram : Bytes) (dest : SocketAddress) : Prop :=
  turn.notes = [.sendTo datagram dest] ∨ ∃ f, turn.notes = [.emitted (.error f), .sendTo datagram dest]

theorem sendTo_performs {datagram : Bytes} {dest : SocketAddress}
    (h : perform self loop p [.sendTo datagram dest] ks = some turn) : Unresolved ks ∧ Passes turn datagram dest := by
  obtain ⟨a, ks, t, u, rfl, ht, hu, rfl⟩ := perform_frame (by simp) h
  cases ht with
  | sendTo _ hsent =>
      have hanswer : ∀ addrs, a ≠ .resolved addrs := by
        rintro addrs rfl
        cases hsent
      rcases sendTo_cases hsent with rfl | ⟨e, rfl⟩
      · cases hreading : p.reading with
        | true =>
            simp only [noting, hreading, ↓reduceIte] at hu
            obtain ⟨rfl, rfl⟩ := perform_nil hu
            exact ⟨by simp [Unresolved, (hanswer _).symm], .inl rfl⟩
        | false =>
            -- the first datagram sent also makes the peer read replies
            simp only [noting, hreading, Bool.false_eq_true, ↓reduceIte] at hu
            obtain ⟨b, ks, t, v, rfl, ht, hv, rfl⟩ := perform_frame (by simp) hu
            cases ht
            simp only [readBack, beginReading, hreading, Bool.false_eq_true, ↓reduceIte] at hv
            obtain ⟨rfl, rfl⟩ := perform_nil hv
            refine ⟨by simp [Unresolved, (hanswer _).symm], .inl ?_⟩
            simp [noting, readBack, beginReading, hreading]
      · obtain ⟨rfl, rfl⟩ := perform_user hu
        exact ⟨by simp [Unresolved, (hanswer _).symm], .inr ⟨_, rfl⟩⟩

theorem resolve_performs {datagram : Bytes} {port : UInt16} {host : String}
    (h : perform self loop p [.resolve datagram port host] ks = some turn) :
    ∃ addrs ks', ks = .resolved addrs :: ks' ∧ Unresolved ks' ∧
      ∀ dest, addrs.head? = some dest → Passes turn datagram dest := by
  obtain ⟨a, ks, t, u, rfl, ht, hu, rfl⟩ := perform_frame (by simp) h
  cases ht with
  | unresolved =>
      obtain ⟨rfl, rfl⟩ := perform_user hu
      exact ⟨[], [], rfl, by simp [Unresolved], by simp⟩
  | @resolved _ _ _ dest addrs =>
      obtain ⟨hanswers, hpasses⟩ := sendTo_performs hu
      refine ⟨dest :: addrs, ks, rfl, hanswers, ?_⟩
      rintro _ ⟨⟩
      simpa [Passes] using hpasses

/-- For a host with an address of the peer's family, the destination that `send` passes to
`send_to` is of that family exactly when the first address found is. -/
theorem send_family_iff (net : Inet) {datagram : Bytes} {port : UInt16} {host : String}
    (h : perform self loop p [.send datagram port host] ks = some turn) {found : List Sockaddr}
    (hanswer : .resolved (net.resolve (some found)) ∈ ks) (hfamily : ∃ s ∈ found, s.domain = p.family) :
    ∃ dest, Passes turn datagram dest ∧
      ((net.toSockaddr dest).domain = p.family ↔ found.head?.map Sockaddr.domain = some p.family) := by
  obtain ⟨a, ks, t, u, rfl, ht, hu, rfl⟩ := perform_frame (by simp) h
  cases ht
  rw [List.append_nil] at hu
  have hanswer : .resolved (net.resolve (some found)) ∈ ks := by simpa using hanswer
  rcases opening_performs hu with ⟨f, -, hnone, -⟩ | ⟨ks₁, ks₂, q, rfl, hnone, -, -, hq⟩
  · exact (hnone _ hanswer).elim
  · obtain ⟨addrs, ks', rfl, hlater, hpasses⟩ := resolve_performs hq
    have haddrs : net.resolve (some found) = addrs := by
      simpa [hnone _, hlater _] using hanswer
    obtain ⟨s, hs, -⟩ := hfamily
    obtain ⟨first, rest, rfl⟩ := List.exists_cons_of_ne_nil (List.ne_nil_of_mem hs)
    refine ⟨net.fromSockaddr first, ?_, ?_⟩
    · simpa [Passes] using hpasses _ (haddrs ▸ rfl)
    · rw [net.domain_toSockaddr_fromSockaddr]
      simp

/-- The addresses of a host with both: 127.0.0.1 and ::1. -/
def loopback4 : Sockaddr := .in4 (htons 53) ⟨[127, 0, 0, 1], rfl⟩

def loopback6 : Sockaddr := .in6 (htons 53) Inet.in6addrLoopback 0

def sendAnswers (found : List Sockaddr) : List Kernel :=
  [.none, .opened 5, .status .success, .resolved (Inet.numeric.resolve (some found))]

theorem inetFirst_sent :
    ∃ turn : Turn Unit Unit, perform () { poller := { wakeFd := 3 } } (create "udp4") [.send [7] 53 "localhost"]
        (sendAnswers [loopback4, loopback6] ++ [.sent 1, .endpoint { address := "" }]) = some turn ∧
      ∃ dest, Passes turn [7] dest ∧ (Inet.numeric.toSockaddr dest).domain = .inet := by
  obtain ⟨turn, hturn⟩ : ∃ turn : Turn Unit Unit,
      perform () { poller := { wakeFd := 3 } } (create "udp4") [.send [7] 53 "localhost"]
        (sendAnswers [loopback4, loopback6] ++ [.sent 1, .endpoint { address := "" }]) = some turn := ⟨_, rfl⟩
  have hanswer : .resolved (Inet.numeric.resolve (some [loopback4, loopback6])) ∈
      sendAnswers [loopback4, loopback6] ++ [.sent 1, .endpoint { address := "" }] := by
    simp [sendAnswers]
  obtain ⟨dest, hpasses, hdomain⟩ := send_family_iff Inet.numeric hturn hanswer ⟨loopback4, by simp, rfl⟩
  exact ⟨turn, hturn, dest, hpasses, hdomain.mpr rfl⟩

/-- With ::1 first, an IPv4 socket is told to send to it, and the kernel refuses. -/
theorem inet6First_sent :
    ∃ turn : Turn Unit Unit, perform () { poller := { wakeFd := 3 } } (create "udp4") [.send [7] 53 "localhost"]
        (sendAnswers [loopback6, loopback4] ++ [.failed ⟨97⟩]) = some turn ∧
      turn.notes = [.emitted (.error (.system "sendto" ⟨97⟩)), .sendTo [7] (Inet.numeric.fromSockaddr loopback6)] ∧
      (Inet.numeric.toSockaddr (Inet.numeric.fromSockaddr loopback6)).domain = .inet6 ∧
      (create "udp4").family = .inet ∧ loopback4.domain = .inet :=
  ⟨_, rfl, rfl, rfl, rfl, rfl⟩

/-- The endpoint that `bind` of a peer of this family is told: a numeric address of the
family, or '0.0.0.0', which stands for the wildcard of either. -/
def denoted (net : Inet) (d : Domain) (port : UInt16) (address : String) : Option Sockaddr :=
  (if d = .inet6 ∧ address = "0.0.0.0" then some d.any else net.pton d address).map (.fill d (htons port))

/-- What `bind` passes to the kernel: the endpoint it is told, or else the wildcard. -/
theorem toSockaddr_bindAddress (net : Inet) (p : Peer) (port : UInt16) (address : String) :
    net.toSockaddr (p.bindAddress port address) =
      (denoted net p.family port address).getD (.fill p.family (htons port) p.family.any) := by
  rw [bindAddress, net.toSockaddr_family, denoted]
  generalize p.family = d
  split
  · next hany =>
      obtain ⟨rfl, -⟩ := hany
      rw [show net.pton .inet6 "::" = some Domain.inet6.any from net.pton_any .inet6]
      rfl
  · cases net.pton d address <;> rfl

/-- `bind` emits 'error' and not 'listening', or it passes the kernel the endpoint it was
told. -/
def BindsOrFails (net : Inet) (d : Domain) (port : UInt16) (address : String) (turn : Turn κ δ) : Prop :=
  (∃ f, .emitted (.error f) ∈ turn.notes ∧ .emitted .listening ∉ turn.notes) ∨
    ∃ addr, .bind addr ∈ turn.notes ∧ denoted net d port address = some (net.toSockaddr addr)

theorem bindsOrFails_iff (net : Inet) {port : UInt16} {address : String}
    (h : perform self loop p [.bind port address] ks = some turn) :
    BindsOrFails net p.family port address turn ↔
      ks.any Kernel.fails = true ∨ (denoted net p.family port address).isSome = true := by
  rcases bind_performs h with ⟨hks, f, earlier, hnotes, hsilent⟩ | ⟨hks, hbound⟩
  · exact iff_of_true (.inl ⟨f, by simp [hnotes, hsilent]⟩) (.inl hks)
  · rw [hks, Bool.false_eq_true, false_or]
    constructor
    · rintro (⟨f, hf, -⟩ | ⟨addr, -, haddr⟩)
      · simp [hbound] at hf
      · rw [haddr]
        rfl
    · intro hsome
      obtain ⟨s, hs⟩ := Option.isSome_iff_exists.mp hsome
      refine .inr ⟨p.bindAddress port address, by simp [hbound], ?_⟩
      rw [toSockaddr_bindAddress, hs]
      rfl

end Peer
end CxNetworking.Udp
