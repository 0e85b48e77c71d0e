import CxNetworking.Core.SocketOps
import CxNetworking.Dns.Client

/-! `dns::server`: what it makes of a datagram, and the responder it hands to the listeners
of 'query'. -/
namespace CxNetworking.Dns
open CxNetworking.Core

/-- `server::responder`; the peer it sends through is the server's. -/
structure Responder where
  to_ : SocketAddress
  requestId : UInt16
  deriving DecidableEq, Repr

/-- The listener on the peer's datagrams: an error text, or the request with its responder. -/
def Server.receive (datagram : Bytes) (source : SocketAddress) : Except Bytes (Message × Responder) :=
  match Message.parse datagram with
  | none => .error (ascii "dropped a malformed query datagram")
  | some request => .ok (request, { to_ := source, requestId := request.header.id })

theorem Server.receive_request {datagram : Bytes} {m : Message} (source : SocketAddress)
    (h : Message.parse datagram = some m) :
    Server.receive datagram source = .ok (m, { to_ := source, requestId := m.header.id }) := by
  unfold Server.receive
  rw [h]

theorem Server.receive_malformed {datagram : Bytes} (source : SocketAddress) (h : Message.parse datagram = none) :
    Server.receive datagram source = .error (ascii "dropped a malformed query datagram") := by
  unfold Server.receive
  rw [h]

namespace Responder

/-- The reply with the request's id and the response bit set. -/
def stamp (r : Responder) (reply : Message) : Message :=
  { reply with header := { reply.header with id := r.requestId, response := true } }

/-- `responder::send`, given whether the peer can send: the datagram sent and its
destination, if any. The call returns whether there is one. -/
def send (r : Responder) (reply : Message) (sent : Bool) : Option (Bytes × SocketAddress) :=
  match (r.stamp reply).serialize with
  | none => none
  | some wire => if sent then some (wire, r.to_) else none

theorem send_eq_some {r : Responder} {reply : Message} {sent : Bool} {wire : Bytes} {dest : SocketAddress}
    (h : r.send reply sent = some (wire, dest)) : (r.stamp reply).serialize = some wire ∧ dest = r.to_ := by
  unfold send at h
  split at h
  · cases h
  · next wire' hw =>
      obtain ⟨-, h⟩ := Option.ite_none_right_eq_some.mp h
      cases h
      exact ⟨hw, rfl⟩

end Responder
end CxNetworking.Dns
