import CxNetworking.Lib.History
import CxNetworking.Protocol.World

/-! The connections of a server. A socket enters `conns_` in the turn that emits it, and
leaves it with its own 'close'. -/
namespace CxNetworking

namespace Tcp.Server
open CxNetworking.Core

theorem executed_conns {κ δ : Type} {self conn : κ} {loop : EventLoop κ δ} {s : Server κ} {f : Frame}
    {answer : Kernel} {turn : Turn κ δ} (h : Executed self conn loop s f answer turn) :
    (accepted f = none ∧ turn.obj.conns = s.conns) ∨
      (accepted f).isSome = true ∧ turn.obj.conns = s.conns ++ [conn] := by
  cases h with
  | bindTo | listenOn | setNonblocking =>
      unfold require
      split <;> exact .inl ⟨rfl, rfl⟩
  | accept _ h => rcases accept_cases h with ⟨d, peer, -, rfl⟩ | rfl | rfl | ⟨e, rfl⟩ <;> exact .inl ⟨rfl, rfl⟩
  | close =>
      unfold close
      split <;> exact .inl ⟨rfl, rfl⟩
  | adopt => exact .inr ⟨rfl, rfl⟩
  | unresolved | resolved | notOpened | opened | store | acceptNonblocking | dropLocal => exact .inl ⟨rfl, rfl⟩

end Tcp.Server

namespace Protocol
open CxNetworking.Core Execution

namespace World

/-- The server whose turn makes a socket, and the number of that socket. -/
def accepts (w : World) : Label → Option (Nat × Nat)
  | .turn _ =>
    match w.stack with
    | .server o f :: _ => if (Tcp.Server.accepted f).isSome then some (o, w.count) else none
    | _ => none
  | _ => none

/-- The sockets that the servers have accepted in a run from the start, newest first. -/
def accepted (wakeFd : Handle) (as : List Label) : List (Nat × Nat) :=
  history step (fun w a made => (w.accepts a).toList ++ made) (create wakeFd) as []

def Closed (w : World) (i : Nat) : Prop := .socket i (.emitted .close) ∈ w.log

structure Bookkept (w : World) (made : List (Nat × Nat)) : Prop where
  numbered : w.Numbered
  accepted : ∀ o i, (o, i) ∈ made → o < w.count ∧ i < w.count
  closed : ∀ i, w.Closed i → i < w.count
  conns : ∀ o s, w.objects o = some (.server s) →
    s.conns.Nodup ∧ ∀ i, i ∈ s.conns ↔ (o, i) ∈ made ∧ ¬ w.Closed i

variable {w d : World} {made : List (Nat × Nat)}

theorem Bookkept.same (h : w.Bookkept made) (hcount : w.count ≤ d.count) (hnumbered : d.Numbered)
    (hclosed : ∀ i, d.Closed i ↔ w.Closed i)
    (hservers : ∀ o s, d.objects o = some (.server s) →
      (∃ s₀, w.objects o = some (.server s₀) ∧ s.conns = s₀.conns) ∨ w.count ≤ o ∧ s.conns = []) : d.Bookkept made := by
  refine ⟨hnumbered, fun o i hi => ?_, fun i hi => ?_, fun o s ho => ?_⟩
  · obtain ⟨ho, hi⟩ := h.accepted o i hi
    exact ⟨Nat.lt_of_lt_of_le ho hcount, Nat.lt_of_lt_of_le hi hcount⟩
  · exact Nat.lt_of_lt_of_le (h.closed i ((hclosed i).mp hi)) hcount
  · simp only [hclosed]
    rcases hservers o s ho with ⟨s₀, hs₀, hconns⟩ | ⟨hnew, hconns⟩
    · rw [hconns]
      exact h.conns o s₀ hs₀
    · rw [hconns]
      refine ⟨.nil, fun i => ⟨fun hi => (nomatch hi), fun hi => ?_⟩⟩
      exact absurd (h.accepted o i hi.1).1 (Nat.not_lt.mpr hnew)

theorem Bookkept.logged (h : w.Bookkept made) (hobjects : d.objects = w.objects) (hcount : d.count = w.count)
    (hclosed : ∀ i, d.Closed i ↔ w.Closed i) : d.Bookkept made := by
  refine h.same (Nat.le_of_eq hcount.symm) (fun i hi => ?_) hclosed fun o s ho => .inl ⟨s, hobjects ▸ ho, rfl⟩
  rw [hobjects]
  exact h.numbered i (hcount ▸ hi)

theorem drop_server {ob : Object} {conn : Nat} {s : Tcp.Server Nat} (h : ob.drop conn = .server s) :
    ∃ s₀, ob = .server s₀ ∧ s.conns = s₀.conns.filter (· ≠ conn) := by
  cases ob with
  | server s₀ =>
      cases h
      exact ⟨s₀, rfl, rfl⟩
  | socket | peer => cases h

theorem applySocket_bookkept (h : w.Bookkept made) {o : Nat} {s : Tcp.Socket} (ho : w.objects o = some (.socket s))
    (rest : List Activation) (turn : Tcp.Turn Nat (Nat × List SocketAddress)) :
    (w.applySocket o rest turn).Bookkept made := by
  have hnumbered := h.numbered.applySocket ho rest turn
  have hclosed : ∀ i, (w.applySocket o rest turn).Closed i ↔ i = o ∧ .emitted .close ∈ turn.notes ∨ w.Closed i := by
    simp [Closed, applySocket, eq_comm, and_comm]
  by_cases hclose : .emitted .close ∈ turn.notes
  · refine ⟨hnumbered, h.accepted, fun i hi => ?_, fun o' s' ho' => ?_⟩
    · rcases (hclosed i).mp hi with ⟨rfl, -⟩ | hi
      · exact h.numbered.lt_of_live ho
      · exact h.closed i hi
    · -- every server forgets the socket, those that hold it and those that do not
      simp only [applySocket, afterSocket, hclose, if_true] at ho'
      obtain ⟨ob, hob, hdrop⟩ := Option.map_eq_some_iff.mp ho'
      obtain ⟨s₀, rfl, hconns⟩ := drop_server hdrop
      have hne : o' ≠ o := by
        rintro rfl
        simp at hob
      rw [Function.update_of_ne hne] at hob
      obtain ⟨hnodup, hmem⟩ := h.conns o' s₀ hob
      rw [hconns]
      refine ⟨hnodup.filter _, fun i => ?_⟩
      simp only [List.mem_filter, hmem, hclosed, hclose, and_true, decide_eq_true_eq]
      tauto
  · refine h.same (Nat.le_refl _) hnumbered (fun i => by simp [hclosed, hclose]) fun o' s' ho' => ?_
    simp only [applySocket, afterSocket, hclose, if_false, Function.update_apply] at ho'
    split at ho'
    · cases ho'
    · exact .inl ⟨s', ho', rfl⟩

theorem applyServer_bookkept (h : w.Bookkept made) {o : Nat} {s : Tcp.Server Nat}
    (ho : w.objects o = some (.server s)) {turn : Tcp.Server.Turn Nat (Nat × List SocketAddress)}
    (hconns : turn.obj.conns = s.conns) (rest : List Activation) : (w.applyServer o rest turn).Bookkept made := by
  refine h.same (Nat.le_refl _) (fun i hi => h.numbered.update ho hi _) ?_ fun o' s' ho' => ?_
  · simp [Closed, applyServer]
  · simp only [applyServer, Function.update_apply] at ho'
    split at ho'
    · next heq =>
        cases ho'
        exact .inl ⟨s, heq ▸ ho, hconns⟩
    · exact .inl ⟨s', ho', rfl⟩

/-- A turn of a server that accepts a socket, which gets the next number. -/
theorem adopt_bookkept (h : w.Bookkept made) {o : Nat} {s : Tcp.Server Nat} (ho : w.objects o = some (.server s))
    {turn : Tcp.Server.Turn Nat (Nat × List SocketAddress)} (hconns : turn.obj.conns = s.conns ++ [w.count])
    (conn : Tcp.Socket) (rest : List Activation) :
    ((w.add (.socket conn)).applyServer o rest turn).Bookkept ((o, w.count) :: made) := by
  have hlive := h.numbered.lt_of_live ho
  have hclosed : ∀ i, ((w.add (.socket conn)).applyServer o rest turn).Closed i ↔ w.Closed i := by
    simp [Closed, applyServer, add]
  have hacc : ∀ o' i, (o', i) ∈ (o, w.count) :: made ↔ o' = o ∧ i = w.count ∨ (o', i) ∈ made := by simp
  have hold : (w.add (.socket conn)).objects o = some (.server s) :=
    (Function.update_of_ne (Nat.ne_of_lt hlive) _ _).trans ho
  refine ⟨fun i hi => (h.numbered.add _).update hold hi _, fun o' i hi => ?_, fun i hi => ?_, fun o' s' ho' => ?_⟩
  · rcases (hacc o' i).mp hi with ⟨rfl, rfl⟩ | hi
    · exact ⟨Nat.lt_succ_of_lt hlive, Nat.lt_succ_self _⟩
    · obtain ⟨ho', hi⟩ := h.accepted o' i hi
      exact ⟨Nat.lt_succ_of_lt ho', Nat.lt_succ_of_lt hi⟩
  · exact Nat.lt_succ_of_lt (h.closed i ((hclosed i).mp hi))
  · simp only [applyServer, add, Function.update_apply] at ho'
    have hnew : w.count ∉ s.conns := fun hmem =>
      Nat.lt_irrefl _ (h.accepted o _ (((h.conns o s ho).2 _).mp hmem).1).2
    have hopen : ¬ w.Closed w.count := fun hc => Nat.lt_irrefl _ (h.closed _ hc)
    simp only [hacc, hclosed]
    split at ho'
    · next heq =>
        cases ho'
        obtain ⟨hnodup, hmem⟩ := h.conns o s ho
        rw [hconns, heq]
        refine ⟨List.nodup_append.mpr ⟨hnodup, by simp, ?_⟩, fun i => ?_⟩
        · rintro i hi j hj rfl
          exact hnew (List.mem_singleton.mp hj ▸ hi)
        · rw [List.mem_append, List.mem_singleton, hmem]
          refine ⟨?_, ?_⟩
          · rintro (⟨hi, hc⟩ | rfl)
            · exact ⟨.inr hi, hc⟩
            · exact ⟨.inl ⟨rfl, rfl⟩, hopen⟩
          · rintro ⟨⟨-, rfl⟩ | hi, hc⟩
            · exact .inr rfl
            · exact .inl ⟨hi, hc⟩
    · next hne =>
        split at ho'
        · cases ho'
        · obtain ⟨hnodup, hmem⟩ := h.conns o' s' ho'
          exact ⟨hnodup, fun i => by simp [hmem, hne]⟩

theorem server_bookkept (h : w.Bookkept made) {o : Nat} {s : Tcp.Server Nat} (ho : w.objects o = some (.server s))
    {f : Tcp.Server.Frame} {k : Kernel} {turn : Tcp.Server.Turn Nat (Nat × List SocketAddress)} {rest : List Activation}
    (hst : w.stack = .server o f :: rest) (hturn : s.Executed o w.count w.loop f k turn) :
    ((w.made f).applyServer o rest turn).Bookkept ((w.accepts (.turn k)).toList ++ made) := by
  rcases Tcp.Server.executed_conns hturn with ⟨hf, hconns⟩ | ⟨hf, hconns⟩
  · simp only [World.made, accepts, hst, hf]
    exact applyServer_bookkept h ho hconns rest
  · obtain ⟨conn, hconn⟩ := Option.isSome_iff_exists.mp hf
    simp only [World.made, accepts, hst, hconn]
    exact adopt_bookkept h ho hconns conn rest

theorem applyPeer_bookkept (h : w.Bookkept made) {o : Nat} {p : Udp.Peer} (ho : w.objects o = some (.peer p))
    (rest : List Activation) (turn : Udp.Peer.Turn Nat (Nat × List SocketAddress)) :
    (w.applyPeer o rest turn).Bookkept made := by
  refine h.same (Nat.le_refl _) (fun i hi => h.numbered.update ho hi _) ?_ fun o' s' ho' => ?_
  · simp [Closed, applyPeer]
  · simp only [applyPeer, Function.update_apply] at ho'
    split at ho'
    · cases ho'
    · exact .inl ⟨s', ho', rfl⟩

theorem step_bookkept {a : Label} (h : w.Bookkept made) (hd : w.step a = some d) :
    d.Bookkept ((w.accepts a).toList ++ made) := by
  cases step_spec hd with
  | @create k =>
      refine h.same (Nat.le_succ _) (h.numbered.add _) (fun _ => Iff.rfl) ?_
      intro o s ho
      simp only [add, Function.update_apply] at ho
      split at ho
      · next heq =>
          refine .inr ⟨Nat.le_of_eq heq.symm, ?_⟩
          cases k <;> cases ho
          rfl
      · exact .inl ⟨s, ho, rfl⟩
  | callSocket | callServer | callPeer => exact h.logged rfl rfl (by simp [Closed])
  | ret | io | resolved => exact h.logged rfl rfl fun _ => Iff.rfl
  | socket hst ho =>
      simp only [accepts, hst]
      exact applySocket_bookkept h ho _ _
  | server hst ho hturn => exact server_bookkept h ho hst hturn
  | peer hst ho =>
      simp only [accepts, hst]
      exact applyPeer_bookkept h ho _ _
  | deferred _ _ ho => exact applySocket_bookkept h ho _ _
  | @destruct o ob _ ho =>
      refine h.same (Nat.le_refl _) (fun i hi => h.numbered.update ho hi _) (fun _ => Iff.rfl) ?_
      intro o' s' ho'
      simp only [Function.update_apply] at ho'
      split at ho'
      · cases ho'
      · exact .inl ⟨s', ho', rfl⟩

theorem create_bookkept (wakeFd : Handle) : (create wakeFd).Bookkept [] := by
  constructor <;> simp [create, Closed, Numbered]

/-- In every state of every run, `conns_` of every live server holds each socket that the
server has accepted and that has not emitted 'close', once, and nothing else. -/
theorem conns_are_open {wakeFd : Handle} {as : List Label} (h : run step (create wakeFd) as = some w) :
    ∀ o s, w.objects o = some (.server s) →
      s.conns.Nodup ∧ ∀ i, i ∈ s.conns ↔ (o, i) ∈ accepted wakeFd as ∧ ¬ w.Closed i := by
  have hstep : ∀ w made a d, Bookkept w made → True → w.step a = some d → d.Bookkept ((w.accepts a).toList ++ made) :=
    fun _ _ _ _ hw _ hd => step_bookkept hw hd
  exact (history_invariant hstep (create_bookkept wakeFd) (Along.trivial _ as) h).conns

def loopback : SocketAddress := { address := "127.0.0.1", port := 80, family := 2 }

def listening : List Label :=
  [.create .server, .call 0 (.server (.listen 80 "localhost")), .turn (.resolved [loopback]), .turn (.opened 4),
    .turn (.status .success), .turn (.status .success), .turn (.status .success), .turn (.endpoint loopback), .ret]

/-- It accepts sockets 1 and 2, and the listener of the second one destroys the first. -/
def destroyedInListener : List Label :=
  listening ++ [.io 4 { readable := true }, .turn (.accepted 5 loopback), .turn (.status .success), .turn .none, .ret,
    .turn (.accepted 6 loopback), .turn (.status .success), .turn .none, .call 1 (.socket .destroy), .turn .none,
    .turn .none, .turn .none, .ret, .ret, .turn (.failed .again)]

theorem destroyedInListener_open :
    ∃ w s, run step (create 3) destroyedInListener = some w ∧ w.objects 0 = some (.server s) ∧
      accepted 3 destroyedInListener = [(0, 2), (0, 1)] ∧ s.conns = [2] ∧ s.conns.Nodup ∧
      ∀ i, i ∈ s.conns ↔ (0, i) ∈ accepted 3 destroyedInListener ∧ ¬ w.Closed i := by
  refine ⟨_, _, rfl, rfl, by decide +kernel, rfl, ?_⟩
  exact conns_are_open (rfl : run step (create 3) destroyedInListener = _) 0 _ rfl

end World
end Protocol
end CxNetworking
