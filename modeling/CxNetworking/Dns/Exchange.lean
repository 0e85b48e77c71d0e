import CxNetworking.Dns.ClientCallbacks
import CxNetworking.Dns.RoundTrip
import CxNetworking.Dns.Server

/-! A `dns::client` and a `dns::server` over a network that keeps every datagram ever sent:
each may arrive any number of times, in any order, or never. Datagrams and responders
carry the number of the query they stem from, which neither party can see. -/
namespace CxNetworking.Dns
open CxNetworking.Core Execution Reader

structure SentRequest where
  query : Nat
  id : UInt16
  wire : Bytes
  deriving DecidableEq, Repr

structure SentReply where
  query : Nat
  responder : Responder
  wire : Bytes
  deriving DecidableEq, Repr

/-- The responders are kept with the query whose request they were created for; a listener
may hold one as long as it likes. -/
structure Exchange where
  client : Client
  address : SocketAddress
  requests : List SentRequest := []
  responders : List (Nat × Responder) := []
  replies : List SentReply := []
  errors : List Bytes := []

inductive ExchangeLabel where
  | client (a : ClientLabel)
  | arrive (i : Nat)
  | respond (i : Nat) (reply : Message) (sent : Bool)
  | deliver (i : Nat)
  deriving DecidableEq, Repr

def Client.sends (c : Client) : ClientLabel → Option SentRequest
  | .query name type id _ none => (request name type id).serialize.map fun wire => { query := c.queries, id, wire }
  | _ => none

namespace Exchange

def start (wakeFd : Handle) (address : SocketAddress) : Exchange := { client := .create wakeFd, address }

def arrive (x : Exchange) (r : SentRequest) : Exchange :=
  match Server.receive r.wire x.address with
  | .error text => { x with errors := text :: x.errors }
  | .ok (_, responder) => { x with responders := (r.query, responder) :: x.responders }

/-- A listener of 'query' replies; only what is sent to the client's address matters. -/
def respond (x : Exchange) (r : Nat × Responder) (reply : Message) (sent : Bool) : Exchange :=
  match r.2.send reply sent with
  | none => x
  | some (wire, dest) =>
    if dest = x.address then { x with replies := { query := r.1, responder := r.2, wire } :: x.replies } else x

/-- The client gets no other datagrams than those delivered here. -/
def step (x : Exchange) : ExchangeLabel → Option Exchange
  | .client (.datagram _) => none
  | .client a =>
    (x.client.step a).map fun client => { x with client, requests := (x.client.sends a).toList ++ x.requests }
  | .arrive i => x.requests[i]?.map x.arrive
  | .respond i reply sent => x.responders[i]?.map fun r => x.respond r reply sent
  | .deliver i =>
    x.replies[i]?.bind fun r => (x.client.step (.datagram r.wire)).map fun client => { x with client }

end Exchange

theorem parse_id_of_serialize {m p : Message} {wire : Bytes} (h : m.serialize = some wire)
    (hp : Message.parse wire = some p) : p.header.id = m.header.id := by
  obtain ⟨split, hsplit⟩ := namesOf_of_serialize h
  cases (serialize_eq hsplit).symm.trans h
  rw [((parse_iff _ p).mp hp).header, write_buffer]
  simp only [List.append_assoc, List.nil_append]
  exact word16_encode16 m.header.id [] _

namespace Client

theorem query_cases (c : Client) (name : Bytes) (type id : UInt16) (now : Int) (failure : Option Bytes) :
    ((request name type id).serialize = none ∧ (c.query name type id now failure).pending = c.pending) ∨
    ∃ wire, (request name type id).serialize = some wire ∧
      (c.query name type id now failure).pending =
        c.pending.insertIfNew id { handler := c.queries, timer := c.loop.nextTimerId } := by
  unfold query
  split
  · next hnone => exact .inl ⟨hnone, rfl⟩
  · next wire hwire =>
      obtain ⟨note, d, hd, -, -, -, -, -, hpending⟩ :=
        submit_spec { c with queries := c.queries + 1, log := .queried c.queries id :: c.log } c.queries id wire now
          failure
      exact .inr ⟨wire, hwire, hd ▸ hpending⟩

theorem resolve_pending {c : Client} {id id' : UInt16} {answer : Option Message} {e : Pending}
    (h : (c.resolve id answer).pending[id']? = some e) : c.pending[id']? = some e := by
  rcases c.resolve_cases id answer with ⟨-, heq⟩ | ⟨entry, -, heq⟩
  · rwa [heq] at h
  · rw [heq] at h
    simp only [Std.ExtTreeMap.getElem?_erase, Std.compare_eq_iff_eq, Option.ite_none_left_eq_some] at h
    exact h.2

theorem step_pending {c d : Client} {a : ClientLabel} (hd : c.step a = some d)
    (ha : ∀ name type id now failure, a ≠ .query name type id now failure) {id : UInt16} {e : Pending}
    (he : d.pending[id]? = some e) : c.pending[id]? = some e := by
  rcases step_spec hd with ⟨_, _, _, _, _, rfl, -⟩ | ⟨datagram, -, heq⟩ | ⟨text, -, heq⟩ | ⟨now, -, heq⟩ |
    ⟨id', due, -, -, heq⟩ | ⟨frame, stack, -, -, heq⟩ | ⟨timeout, -, heq⟩
  · exact (ha _ _ _ _ _ rfl).elim
  · rw [heq] at he
    unfold receive at he
    split at he
    · exact he
    · exact resolve_pending he
  · rwa [heq] at he
  · rwa [heq] at he
  · rw [heq] at he
    exact resolve_pending (c := { c with due }) he
  · rw [heq] at he
    cases frame with
    | leave | answerInvalid => exact he
    | resolveFailed id' => exact resolve_pending (c := { c with stack }) he
  · rwa [heq] at he

/-- Only a datagram calls a handler with a message: the one entered under the message's id. -/
theorem answered_by {c d : Client} {a : ClientLabel} (hd : c.step a = some d) {n : Nat} {m : Message}
    (h : d.log = .invoked n (some m) :: c.log) :
    ∃ datagram, a = .datagram datagram ∧ Message.parse datagram = some m ∧
      ∃ e : Pending, c.pending[m.header.id]? = some e ∧ e.handler = n := by
  rcases step_spec hd with ⟨_, _, _, _, _, -, heq⟩ | ⟨datagram, ha, heq⟩ | ⟨text, -, heq⟩ | ⟨now, -, heq⟩ |
    ⟨id, due, -, -, heq⟩ | ⟨frame, stack, -, -, heq⟩ | ⟨timeout, -, heq⟩ <;> rw [heq] at h
  · obtain ⟨note, hnote, hlog⟩ := c.query_log _ _ _ _ _
    rw [hlog] at h
    exact (hnote _ _ (List.cons.inj h).1).elim
  · unfold receive at h
    split at h
    · simp at h
    · next parsed hparse =>
        obtain ⟨hm, hentry⟩ := resolve_invoked h
        cases hm
        exact ⟨datagram, ha, hparse, hentry⟩
  · simp [peerError] at h
  · exact ((List.cons_ne_self _ _) h.symm).elim
  · cases (resolve_invoked (c := { c with due }) h).1
  · cases frame with
    | leave => exact ((List.cons_ne_self _ _) h.symm).elim
    | answerInvalid n' => simp [resume] at h
    | resolveFailed id => cases (resolve_invoked (c := { c with stack }) h).1
  · exact ((List.cons_ne_self _ _) h.symm).elim

end Client

namespace Exchange

/-- What is on its way carries the id of the query it stems from, and an entry under that
id is the query's. -/
structure Matched (x : Exchange) : Prop where
  requests : ∀ r ∈ x.requests, ∀ m, Message.parse r.wire = some m → m.header.id = r.id
  responders : ∀ q responder, (q, responder) ∈ x.responders → ∃ r ∈ x.requests, r.query = q ∧ r.id = responder.requestId
  replies : ∀ r ∈ x.replies, (r.query, r.responder) ∈ x.responders ∧
    ∀ m, Message.parse r.wire = some m → m.header.id = r.responder.requestId
  entries : ∀ r ∈ x.requests, ∀ e : Pending, x.client.pending[r.id]? = some e → e.handler = r.query

/-- A query that gets as far as `pending_` draws an id that is not outstanding and that no
request sent before carries. -/
def KeepsIds (x : Exchange) : ExchangeLabel → Prop
  | .client (.query name type id now failure) =>
    x.client.FreshId (.query name type id now failure) ∧
      ((request name type id).serialize ≠ none → ∀ r ∈ x.requests, r.id ≠ id)
  | _ => True

instance (x : Exchange) (a : ExchangeLabel) : Decidable (x.KeepsIds a) :=
  match a with
  | .client (.query _ _ _ _ _) => inferInstanceAs (Decidable (_ ∧ (_ → _)))
  | .client (.datagram _) | .client (.peerError _) | .client (.collect _) | .client .timer | .client .ret
  | .client (.setTimeout _) | .arrive _ | .respond _ _ _ | .deliver _ => isTrue trivial

theorem start_matched (wakeFd : Handle) (address : SocketAddress) : (start wakeFd address).Matched := by
  constructor <;> simp [start]

theorem Matched.client {x : Exchange} (h : x.Matched) {client : Client}
    (hpending : ∀ (id : UInt16) (e : Pending), client.pending[id]? = some e → x.client.pending[id]? = some e) :
    { x with client }.Matched :=
  ⟨h.requests, h.responders, h.replies, fun r hr e he => h.entries r hr e (hpending r.id e he)⟩

theorem query_matched {x : Exchange} (h : x.Matched) {name : Bytes} {type id : UInt16} {now : Int}
    {failure : Option Bytes} (hok : x.KeepsIds (.client (.query name type id now failure))) :
    { x with
      client := x.client.query name type id now failure
      requests := (x.client.sends (.query name type id now failure)).toList ++ x.requests }.Matched := by
  rcases x.client.query_cases name type id now failure with ⟨hnone, hpending⟩ | ⟨wire, hwire, hpending⟩
  · have hsends : x.client.sends (.query name type id now failure) = none := by
      cases failure with
      | none => simp only [Client.sends, hnone, Option.map_none]
      | some text => rfl
    rw [hsends]
    exact h.client (fun id' e he => hpending ▸ he)
  · have hfree : x.client.pending[id]? = none := hok.1 (by simp [hwire])
    have hunused := hok.2 (by simp [hwire])
    have hentry : ∀ id' : UInt16, (x.client.query name type id now failure).pending[id']? =
        if id = id' then some { handler := x.client.queries, timer := x.client.loop.nextTimerId }
        else x.client.pending[id']? := by
      intro id'
      rw [hpending, Client.emplace_free hfree]
    have hnew : ∀ r ∈ (x.client.sends (.query name type id now failure)).toList,
        r = { query := x.client.queries, id, wire } := by
      intro r hr
      cases failure with
      | none => simpa [Client.sends, hwire, eq_comm] using hr
      | some text => simp [Client.sends] at hr
    refine ⟨?_, ?_, h.replies, ?_⟩
    · intro r hr m hm
      rcases List.mem_append.mp hr with hr | hr
      · rw [hnew r hr] at hm ⊢
        exact parse_id_of_serialize hwire hm
      · exact h.requests r hr m hm
    · intro q responder hmem
      obtain ⟨r, hr, hq⟩ := h.responders q responder hmem
      exact ⟨r, List.mem_append_right _ hr, hq⟩
    · intro r hr e he
      rw [hentry] at he
      rcases List.mem_append.mp hr with hr | hr
      · rw [hnew r hr] at he ⊢
        rw [if_pos rfl] at he
        cases he
        rfl
      · rw [if_neg (Ne.symm (hunused r hr))] at he
        exact h.entries r hr e he

theorem arrive_matched {x : Exchange} (h : x.Matched) {r : SentRequest} (hr : r ∈ x.requests) :
    (x.arrive r).Matched := by
  unfold arrive Server.receive
  cases hm : Message.parse r.wire with
  | none => exact ⟨h.requests, h.responders, h.replies, h.entries⟩
  | some m =>
      refine ⟨h.requests, ?_, fun r' hr' => ?_, h.entries⟩
      · intro q responder hmem
        rcases List.mem_cons.mp hmem with heq | hmem
        · cases heq
          exact ⟨r, hr, rfl, (h.requests r hr m hm).symm⟩
        · exact h.responders q responder hmem
      · exact (h.replies r' hr').imp_left (List.mem_cons_of_mem _)

theorem respond_matched {x : Exchange} (h : x.Matched) {r : Nat × Responder} (hr : r ∈ x.responders)
    (reply : Message) (sent : Bool) :
    (x.respond r reply sent).Matched := by
  unfold respond
  split
  · exact h
  · next wire dest hsend =>
      split
      · refine ⟨h.requests, h.responders, ?_, h.entries⟩
        intro r' hr'
        rcases List.mem_cons.mp hr' with rfl | hr'
        · exact ⟨hr, fun m hm => parse_id_of_serialize (Responder.send_eq_some hsend).1 hm⟩
        · exact h.replies r' hr'
      · exact h

theorem arrive_client (x : Exchange) (r : SentRequest) : (x.arrive r).client = x.client := by
  unfold arrive
  split <;> rfl

theorem respond_client (x : Exchange) (r : Nat × Responder) (reply : Message) (sent : Bool) :
    (x.respond r reply sent).client = x.client := by
  unfold respond
  split
  · rfl
  · split <;> rfl

theorem step_spec {x y : Exchange} {a : ExchangeLabel} (h : x.step a = some y) :
    (∃ b client, a = .client b ∧ (∀ d, b ≠ .datagram d) ∧ x.client.step b = some client ∧
      y = { x with client, requests := (x.client.sends b).toList ++ x.requests }) ∨
    (∃ i r, a = .arrive i ∧ r ∈ x.requests ∧ y = x.arrive r) ∨
    (∃ i reply sent r, a = .respond i reply sent ∧ r ∈ x.responders ∧ y = x.respond r reply sent) ∨
    (∃ i r client, a = .deliver i ∧ x.replies[i]? = some r ∧ x.client.step (.datagram r.wire) = some client ∧
      y = { x with client }) := by
  cases a with
  | client b =>
      by_cases hb : ∃ d, b = .datagram d
      · obtain ⟨d, rfl⟩ := hb
        cases h
      · have hstep : x.step (.client b) = (x.client.step b).map fun client =>
            { x with client, requests := (x.client.sends b).toList ++ x.requests } := by
          cases b with
          | datagram d => exact (hb ⟨d, rfl⟩).elim
          | query | peerError | collect | timer | ret | setTimeout => rfl
        rw [hstep] at h
        obtain ⟨client, hc, rfl⟩ := Option.map_eq_some_iff.mp h
        exact .inl ⟨b, client, rfl, fun d hd => hb ⟨d, hd⟩, hc, rfl⟩
  | arrive i =>
      obtain ⟨r, hr, rfl⟩ := Option.map_eq_some_iff.mp h
      exact .inr (.inl ⟨i, r, rfl, List.mem_of_getElem? hr, rfl⟩)
  | respond i reply sent =>
      obtain ⟨r, hr, rfl⟩ := Option.map_eq_some_iff.mp h
      exact .inr (.inr (.inl ⟨i, reply, sent, r, rfl, List.mem_of_getElem? hr, rfl⟩))
  | deliver i =>
      obtain ⟨r, hr, h⟩ := Option.bind_eq_some_iff.mp h
      obtain ⟨client, hc, rfl⟩ := Option.map_eq_some_iff.mp h
      exact .inr (.inr (.inr ⟨i, r, client, rfl, hr, hc, rfl⟩))

theorem step_matched {x y : Exchange} {a : ExchangeLabel} (h : x.Matched) (hok : x.KeepsIds a)
    (hy : x.step a = some y) : y.Matched := by
  rcases step_spec hy with ⟨b, client, rfl, -, hc, heq⟩ | ⟨i, r, -, hr, heq⟩ | ⟨i, reply, sent, r, -, hr, heq⟩ |
    ⟨i, r, client, -, -, hc, heq⟩ <;> rw [heq]
  · cases b with
    | query name type id now failure =>
        rw [← Option.some.inj hc]
        exact query_matched h hok
    | datagram | peerError | collect | timer | ret | setTimeout =>
        exact h.client fun id e he => Client.step_pending hc (by simp) he
  · exact arrive_matched h hr
  · exact respond_matched h hr reply sent
  · exact h.client fun id e he => Client.step_pending hc (by simp) he

/-- However the datagrams are delayed, reordered, lost or copied: a handler that is called
with a message gets what a responder created for its own query's request has sent, as
long as no id is drawn again that an earlier request carries. -/
theorem answers_match (wakeFd : Handle) (address : SocketAddress) {as : List ExchangeLabel} {x y : Exchange}
    {a : ExchangeLabel} {n : Nat} {m : Message} (hok : Along step KeepsIds (start wakeFd address) as)
    (hx : run step (start wakeFd address) as = some x) (hy : x.step a = some y)
    (hcall : y.client.log = .invoked n (some m) :: x.client.log) :
    ∃ i reply, a = .deliver i ∧ x.replies[i]? = some reply ∧ Message.parse reply.wire = some m ∧ reply.query = n ∧
      (n, reply.responder) ∈ x.responders := by
  have hmatched : x.Matched :=
    (throughout_of_along (fun _ _ _ => step_matched) (start_matched wakeFd address) hok).last hx
  rcases step_spec hy with ⟨b, client, -, hb, hc, heq⟩ | ⟨i, r, -, hr, heq⟩ | ⟨i, reply, sent, r, -, hr, heq⟩ |
    ⟨i, r, client, ha, hr, hc, heq⟩ <;> rw [heq] at hcall
  · obtain ⟨datagram, hdatagram, -⟩ := Client.answered_by hc hcall
    exact (hb datagram hdatagram).elim
  · rw [arrive_client] at hcall
    exact ((List.cons_ne_self _ _) hcall.symm).elim
  · rw [respond_client] at hcall
    exact ((List.cons_ne_self _ _) hcall.symm).elim
  · obtain ⟨datagram, hdatagram, hm, e, he, hn⟩ := Client.answered_by hc hcall
    cases hdatagram
    obtain ⟨hresponder, hid⟩ := hmatched.replies r (List.mem_of_getElem? hr)
    obtain ⟨request, hrequest, hquery, hrid⟩ := hmatched.responders _ _ hresponder
    rw [hid m hm, ← hrid] at he
    have hsame : r.query = n := by rw [← hn, ← hquery, hmatched.entries request hrequest e he]
    exact ⟨i, r, ha, hr, hm, hsame, hsame ▸ hresponder⟩

/-- Two queries; the requests arrive in the other order, the first one twice, and each
responder answers. -/
def crossedRun : List ExchangeLabel :=
  [.client (.query [97] 1 7 0 none), .client (.query [98] 1 8 0 none), .arrive 0, .arrive 1, .arrive 1,
    .respond 0 {} true, .respond 2 {} true]

theorem crossedRun_matches :
    ∃ x y, ∃ m : Message, run step (start 3 { address := "10.0.0.2", port := 4000 }) crossedRun = some x ∧
      x.step (.deliver 0) = some y ∧ y.client.log = .invoked 1 (some m) :: x.client.log ∧
      ∃ i reply, ExchangeLabel.deliver 0 = .deliver i ∧ x.replies[i]? = some reply ∧
        Message.parse reply.wire = some m ∧ reply.query = 1 ∧ (1, reply.responder) ∈ x.responders := by
  have hfacts : (run step (start 3 { address := "10.0.0.2", port := 4000 }) crossedRun).bind (fun x =>
      (x.step (.deliver 0)).map fun y => decide (y.client.log =
        .invoked 1 (some { header := { id := 8, response := true } }) :: x.client.log)) = some true := by
    decide +kernel
  obtain ⟨x, hx, hfacts⟩ := Option.bind_eq_some_iff.mp hfacts
  obtain ⟨y, hy, hcall⟩ := Option.map_eq_some_iff.mp hfacts
  have hcall := of_decide_eq_true hcall
  exact ⟨x, y, _, hx, hy, hcall, answers_match 3 _ (by decide +kernel) hx hy hcall⟩

/-- The first query is answered but times out, and the second draws its id. -/
def staleRun : List ExchangeLabel :=
  [.client (.query [97] 1 7 0 none), .arrive 0, .respond 0 {} true, .client (.collect 5000000000), .client .timer,
    .client .ret, .client (.query [98] 1 7 6000000000 none)]

/-- The late reply to the first query is given to the handler of the second, whose request
no responder was created for. -/
theorem staleRun_misleads :
    ∃ x y, ∃ m : Message, ∃ reply, run step (start 3 { address := "10.0.0.2", port := 4000 }) staleRun = some x ∧
      x.step (.deliver 0) = some y ∧ y.client.log = .invoked 1 (some m) :: x.client.log ∧
      x.replies[0]? = some reply ∧ Message.parse reply.wire = some m ∧ reply.query = 0 ∧
      ∀ responder, (1, responder) ∉ x.responders := by
  have hfacts : (run step (start 3 { address := "10.0.0.2", port := 4000 }) staleRun).bind (fun x =>
      (x.step (.deliver 0)).map fun y => (decide (y.client.log =
        .invoked 1 (some { header := { id := 7, response := true } }) :: x.client.log),
        x.replies[0]?.map fun r => (r.query, decide (Message.parse r.wire =
          some { header := { id := 7, response := true } })), x.responders.map Prod.fst)) =
      some (true, some (0, true), [0]) := by
    decide +kernel
  obtain ⟨x, hx, hfacts⟩ := Option.bind_eq_some_iff.mp hfacts
  obtain ⟨y, hy, hfacts⟩ := Option.map_eq_some_iff.mp hfacts
  simp only [Prod.mk.injEq, decide_eq_true_eq] at hfacts
  obtain ⟨hcall, hreply, hresponders⟩ := hfacts
  obtain ⟨reply, hreply, hfields⟩ := Option.map_eq_some_iff.mp hreply
  simp only [Prod.mk.injEq, decide_eq_true_eq] at hfields
  refine ⟨x, y, _, reply, hx, hy, hcall, hreply, hfields.2, hfields.1, ?_⟩
  intro responder hmem
  have hquery : 1 ∈ x.responders.map Prod.fst := List.mem_map_of_mem hmem
  simp [hresponders] at hquery

end Exchange
end CxNetworking.Dns
