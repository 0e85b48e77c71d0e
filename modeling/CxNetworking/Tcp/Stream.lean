import CxNetworking.Tcp.Socket
import CxNetworking.Lib.Execution

/-! The outgoing byte stream of a socket: what the kernel has taken, followed by what is
still buffered, is what was written. -/
namespace CxNetworking.Tcp
open CxNetworking.Core Execution

/-- The bytes the kernel has accepted, in order. -/
def taken : List Note → Bytes
  | [] => []
  | .took bytes :: earlier => taken earlier ++ bytes
  | _ :: earlier => taken earlier

/-- The chunks of the `write` calls that found the socket open, joined in order. -/
def written : List Note → Bytes
  | [] => []
  | .queued chunk :: earlier => written earlier ++ chunk
  | _ :: earlier => written earlier

/-- The offset lies inside the buffer, and no byte is lost, duplicated or reordered. -/
structure Stream (s : Socket) (log : List Note) : Prop where
  bound : s.outOffset ≤ s.outbuf.length
  bytes : taken log ++ s.outbuf.drop s.outOffset = written log

/-- A note that moves no outgoing byte. -/
def Note.Still : Note → Prop
  | .took _ | .queued _ => False
  | _ => True

theorem Stream.still {s s' : Socket} {log notes : List Note} (h : Stream s log)
    (hbuf : s'.outbuf = s.outbuf) (hoff : s'.outOffset = s.outOffset) (hnotes : ∀ n ∈ notes, n.Still) :
    Stream s' (notes ++ log) := by
  induction notes with
  | nil => exact ⟨by rw [hbuf, hoff]; exact h.bound, by rw [hbuf, hoff]; exact h.bytes⟩
  | cons n notes ih =>
      have ih := ih fun m hm => hnotes m (List.mem_cons_of_mem _ hm)
      cases n with
      | took | queued => exact (hnotes _ List.mem_cons_self).elim
      | emitted | called | shutdown => exact ⟨ih.bound, ih.bytes⟩

namespace Socket

variable {κ δ : Type} {t : Nat} {loop : EventLoop κ δ} {s : Socket} {log notes : List Note} {k : Caller}

theorem afterPump_stream (h : Stream s (notes ++ log)) :
    Stream (afterPump t loop s notes k).obj ((afterPump t loop s notes k).notes ++ log) := by
  rcases afterPump_cases t loop s k notes with
    ⟨-, -, heq⟩ | ⟨-, -, heq⟩ | ⟨r, -, -, heq⟩ | ⟨r, -, -, heq⟩ <;> rw [heq] <;> exact ⟨h.bound, h.bytes⟩

theorem pumpOutput_stream (h : Stream s (notes ++ log)) :
    Stream (pumpOutput t loop s notes k).obj ((pumpOutput t loop s notes k).notes ++ log) := by
  unfold pumpOutput
  split
  · exact ⟨h.bound, h.bytes⟩
  · next hback =>
      have hend : s.outbuf.length ≤ s.outOffset := by simpa [backlog] using hback
      refine afterPump_stream ⟨Nat.le_refl _, ?_⟩
      rw [← h.bytes, List.drop_eq_nil_of_le hend]
      rfl

theorem queued_stream {chunk : Bytes} (h : Stream s log) :
    Stream { s with outbuf := s.outbuf ++ chunk } (.queued chunk :: log) := by
  refine ⟨?_, ?_⟩
  · simp only [List.length_append]
    exact Nat.le_add_right_of_le h.bound
  · simp only [taken, written, List.drop_append_of_le_length h.bound]
    rw [← List.append_assoc, h.bytes]

theorem took_stream {n : Nat} (h : Stream s log) (hn : n ≤ s.outbuf.length - s.outOffset) :
    Stream { s with outOffset := s.outOffset + n } (.took ((s.outbuf.drop s.outOffset).take n) :: log) := by
  have hb := h.bound
  refine ⟨by simp only; omega, ?_⟩
  simp only [taken, written]
  rw [← List.drop_drop, List.append_assoc, List.take_append_drop, h.bytes]

theorem write_stream {chunk : Bytes} (h : Stream s log) :
    Stream (write t loop s chunk).obj ((write t loop s chunk).notes ++ log) := by
  unfold write
  split
  · exact h.still rfl rfl (by simp [fail, emit, Note.Still])
  · split
    · exact afterPump_stream (queued_stream h)
    · exact pumpOutput_stream (queued_stream h)

theorem pump_stream {answer : Kernel} {turn : Turn κ δ} (h : Stream s log)
    (hturn : pump t loop s k answer = some turn) : Stream turn.obj (turn.notes ++ log) := by
  rcases pump_cases hturn with ⟨n, -, hn, rfl⟩ | rfl | rfl | ⟨e, rfl⟩
  · exact pumpOutput_stream (took_stream h hn)
  · exact afterPump_stream h
  · exact h
  · exact h.still rfl rfl (by simp [fail, emit, Note.Still])

theorem recv_stream {answer : Kernel} {turn : Turn κ δ} (h : Stream s log)
    (hturn : recv loop s answer = some turn) : Stream turn.obj (turn.notes ++ log) := by
  rcases recv_cases hturn with rfl | ⟨chunk, rfl⟩ | rfl | rfl | ⟨e, rfl⟩ <;>
    exact h.still rfl rfl (by simp [fail, emit, Note.Still])

theorem executed_stream {self : κ} {f : Frame} {answer : Kernel} {turn : Turn κ δ} (h : Stream s log)
    (hturn : Executed self t loop s f answer turn) : Stream turn.obj (turn.notes ++ log) := by
  cases hturn with
  | write => exact write_stream h
  | pump _ hturn => exact pump_stream h hturn
  | relock => exact afterPump_stream h
  | pumpOutput => exact pumpOutput_stream h
  | recv _ hturn => exact recv_stream h hturn
  | halfClose =>
      refine h.still rfl rfl ?_
      simp only [halfClose]
      split <;> simp [Note.Still]
  | afterDrain =>
      refine h.still rfl rfl ?_
      simp only [afterDrain]
      split <;> simp [Note.Still]
  | afterConnect =>
      unfold afterConnect
      split <;> exact h.still rfl rfl (by simp)
  | refused | lowerConnected | lowerDrained | closeDesc | notOpened | blocking | unreachable =>
      exact h.still rfl rfl (by simp [fail, emit, Note.Still])
  | raise | onIo | connected | setOpen | closeBegin | closeUnwatch | opened | nonblocking | connecting | storeConnect
    | watchConnect | dropLocal => exact h.still rfl rfl (by simp [setOpen, closeBegin, storeConnect])

end Socket

namespace Conn

theorem step_stream {c d : Conn} {a : ConnLabel} (h : Stream c.sock c.log) (hd : c.step a = some d) :
    Stream d.sock d.log := by
  rcases step_spec hd with ⟨t, call, -, -, rfl⟩ | ⟨t, rest, -, -, rfl⟩ | ⟨t, k, f, rest, turn, -, -, hturn, rfl⟩ |
    ⟨hd, r, -, -, -, rfl⟩ | ⟨addrs, -, rfl⟩ | ⟨addrs, deferred, -, -, -, rfl⟩
  · exact ⟨h.bound, h.bytes⟩
  · exact h
  · exact Socket.executed_stream h hturn
  · exact h
  · exact h
  · cases addrs with
    | nil => exact ⟨h.bound, h.bytes⟩
    | cons addr rest => exact h

/-- In every run of a socket, whatever the threads, listeners and the kernel do, the
offset stays inside the buffer, and the bytes the kernel has accepted followed by the
rest of the buffer are the chunks written while the socket was open, in order. -/
theorem stream_intact {c d : Conn} (hc : Initial c) {as : List ConnLabel} (h : run step c as = some d) :
    d.sock.outOffset ≤ d.sock.outbuf.length ∧
      taken d.log ++ d.sock.outbuf.drop d.sock.outOffset = written d.log := by
  have hstart : Stream c.sock c.log := by
    cases hc <;> exact ⟨Nat.le_refl _, rfl⟩
  have hend : Stream d.sock d.log :=
    run_invariant (I := fun c => Stream c.sock c.log) (fun _ _ _ => step_stream) hstart h
  exact ⟨hend.bound, hend.bytes⟩

/-- Three bytes are written of which the kernel takes two; one more byte is written by
another thread, and the rest goes out when the descriptor is writable. -/
def partialRun : List ConnLabel :=
  [.call 0 (.write [1, 2, 3]), .turn 0 .none, .turn 0 (.sent 2), .turn 0 (.failed .again), .turn 0 .none,
    .call 1 (.write [4]), .turn 1 .none, .turn 1 .none,
    .io 5 { writable := true }, .turn 0 .none, .turn 0 .none, .turn 0 (.failed .interrupted), .turn 0 (.sent 1)]

theorem partialRun_intact :
    ∃ d, run step (accepted 3 5 { address := "" }) partialRun = some d ∧
      taken d.log = [1, 2, 3] ∧ d.sock.outbuf.drop d.sock.outOffset = [4] ∧ written d.log = [1, 2, 3, 4] ∧
      taken d.log ++ d.sock.outbuf.drop d.sock.outOffset = written d.log := by
  have hfacts : (run step (accepted 3 5 { address := "" }) partialRun).map (fun d =>
      (taken d.log, d.sock.outbuf.drop d.sock.outOffset, written d.log)) =
      some ([1, 2, 3], [4], [1, 2, 3, 4]) := by
    decide
  obtain ⟨d, hd, hfacts⟩ := Option.map_eq_some_iff.mp hfacts
  simp only [Prod.mk.injEq] at hfacts
  exact ⟨d, hd, hfacts.1, hfacts.2.1, hfacts.2.2, (stream_intact (.accepted 3 5 _ rfl) hd).2⟩

end Conn
end CxNetworking.Tcp
