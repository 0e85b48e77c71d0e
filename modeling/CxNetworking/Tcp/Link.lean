import CxNetworking.Tcp.Stream
import CxNetworking.Tcp.Reconnect

/-! Two sockets joined by a connection. The kernels carry the bytes: what one side's `send`
took is what the other side's `recv` gets, in order and in chunks of any size, and the end
of the stream is seen when the sender has shut down or closed and everything before it was
received. Sends and receives may also fail at any time. -/
namespace CxNetworking.Tcp
open CxNetworking.Core Execution

/-- The bytes handed to the listeners of 'data', in order. -/
def received : List Note → Bytes
  | [] => []
  | .emitted (.data chunk) :: earlier => received earlier ++ chunk
  | _ :: earlier => received earlier

/-- Notes that move no byte and do not end the stream. -/
def Note.silent : Note → Bool
  | .queued _ | .took _ | .emitted (.data _) | .emitted .end => false
  | _ => true

theorem silent_append {notes : List Note} (h : ∀ n ∈ notes, n.silent = true) (log : List Note) :
    written (notes ++ log) = written log ∧ taken (notes ++ log) = taken log ∧
      received (notes ++ log) = received log ∧ .emitted .end ∉ notes := by
  induction notes with
  | nil => exact ⟨rfl, rfl, rfl, List.not_mem_nil⟩
  | cons n notes ih =>
      obtain ⟨hn, hnotes⟩ := List.forall_mem_cons.mp h
      obtain ⟨hwritten, htaken, hreceived, hend⟩ := ih hnotes
      cases n with
      | emitted e =>
          cases e with
          | data | «end» => cases hn
          | connect | drain | error | close => exact ⟨hwritten, htaken, hreceived, by simpa using hend⟩
      | called | shutdown => exact ⟨hwritten, htaken, hreceived, by simpa using hend⟩
      | queued | took => cases hn

namespace Socket

variable {κ δ : Type} {self : κ} {t : Nat} {loop : EventLoop κ δ} {s : Socket} {f : Frame} {answer : Kernel}
  {turn : Turn κ δ}

def accepts (s : Socket) : Frame → Bytes
  | .write chunk => if s.state = .open then chunk else []
  | _ => []

def sends (s : Socket) : Frame → Kernel → Bytes
  | .pump _, .sent n => (s.outbuf.drop s.outOffset).take n
  | _, _ => []

/-- The chunk that the kernel hands over in a turn; an empty one is the end of the stream. -/
def receives : Frame → Kernel → Option Bytes
  | .recv, .got chunk => some chunk
  | _, _ => none

/-- The notes of a turn tell the transfer that it made. -/
structure Transfers (s : Socket) (f : Frame) (answer : Kernel) (notes : List Note) : Prop where
  written : ∀ log, written (notes ++ log) = written log ++ s.accepts f
  taken : ∀ log, taken (notes ++ log) = taken log ++ s.sends f answer
  received : ∀ log, received (notes ++ log) = received log ++ (receives f answer).getD []
  ends : .emitted .end ∈ notes → receives f answer = some []

theorem Transfers.silent {notes : List Note} (h : ∀ n ∈ notes, n.silent = true) (hw : s.accepts f = [])
    (hs : s.sends f answer = []) (hr : receives f answer = none) : Transfers s f answer notes where
  written log := by rw [(silent_append h log).1, hw, List.append_nil]
  taken log := by rw [(silent_append h log).2.1, hs, List.append_nil]
  received log := by rw [(silent_append h log).2.2.1, hr, Option.getD_none, List.append_nil]
  ends he := absurd he (silent_append h []).2.2.2

theorem pump_transfers {k : Caller} (h : pump t loop s k answer = some turn) :
    Transfers s (.pump k) answer turn.notes := by
  cases answer with
  | sent n =>
      obtain ⟨-, h⟩ := Option.ite_none_right_eq_some.mp h
      split at h
      · cases h
        rw [pumpOutput_notes]
        exact ⟨fun _ => (List.append_nil _).symm, fun _ => rfl, fun _ => (List.append_nil _).symm, by simp⟩
      · next hn =>
          cases h
          have hzero : s.sends (.pump k) (.sent n) = [] := by
            rw [Nat.eq_zero_of_not_pos hn, sends, List.take_zero]
          exact .silent (by simp [fail, emit, Note.silent]) rfl hzero rfl
  | failed e =>
      simp only [pump] at h
      split at h
      · cases h
        rw [afterPump_notes]
        exact .silent (List.forall_mem_nil _) rfl rfl rfl
      · split at h <;> cases h <;> exact .silent (by simp [fail, emit, Note.silent]) rfl rfl rfl
  | none | got | status | opened | accepted | received | resolved | endpoint => cases h

theorem write_transfers (chunk : Bytes) : Transfers s (.write chunk) .none (write t loop s chunk).notes := by
  have hqueued (hs : s.state = .open) : Transfers s (.write chunk) .none [.queued chunk] := by
    refine ⟨fun _ => ?_, fun _ => (List.append_nil _).symm, fun _ => (List.append_nil _).symm, by simp⟩
    rw [accepts, if_pos hs]
    rfl
  rcases write_cases t loop s chunk with ⟨hs, heq⟩ | ⟨hs, -, heq⟩ | ⟨hs, -, heq⟩ <;> rw [heq]
  · exact .silent (by simp [fail, emit, Note.silent]) (if_neg hs) rfl rfl
  · exact hqueued hs
  · rw [pumpOutput_notes]
    exact hqueued hs

theorem recv_transfers (h : recv loop s answer = some turn) : Transfers s .recv answer turn.notes := by
  unfold recv at h
  split at h
  · cases h
    exact ⟨fun _ => (List.append_nil _).symm, fun _ => (List.append_nil _).symm, fun _ => (List.append_nil _).symm,
      fun _ => rfl⟩
  · next chunk _ =>
      cases h
      exact ⟨fun _ => (List.append_nil _).symm, fun _ => (List.append_nil _).symm, fun _ => rfl, by simp [emit]⟩
  · split at h
    · cases h
      exact .silent (List.forall_mem_nil _) rfl rfl rfl
    · split at h <;> cases h <;> exact .silent (by simp [fail, emit, Note.silent]) rfl rfl rfl
  · cases h

theorem executed_transfers (h : Executed self t loop s f answer turn) : Transfers s f answer turn.notes := by
  cases h with
  | @write chunk => exact write_transfers chunk
  | pump _ h => exact pump_transfers h
  | relock =>
      rw [afterPump_notes]
      exact .silent (List.forall_mem_nil _) rfl rfl rfl
  | pumpOutput =>
      rw [pumpOutput_notes]
      exact .silent (List.forall_mem_nil _) rfl rfl rfl
  | recv _ h => exact recv_transfers h
  | halfClose =>
      refine .silent ?_ rfl rfl rfl
      simp only [halfClose]
      split <;> simp [Note.silent]
  | afterDrain =>
      refine .silent ?_ rfl rfl rfl
      simp only [afterDrain]
      split <;> simp [Note.silent]
  | afterConnect =>
      refine .silent ?_ rfl rfl rfl
      unfold afterConnect
      split <;> simp
  | raise | onIo | connected | setOpen | closeBegin | closeUnwatch | opened | nonblocking | connecting | storeConnect
    | watchConnect | dropLocal | refused | lowerConnected | lowerDrained | closeDesc | notOpened | blocking
    | unreachable =>
      exact .silent (by simp [setOpen, closeBegin, storeConnect, fail, emit, Note.silent]) rfl rfl rfl

end Socket

namespace Conn

def accepts (c : Conn) : ConnLabel → Bytes
  | .turn t _ => ((c.threads t).head?.map fun f => c.sock.accepts f).getD []
  | _ => []

def sends (c : Conn) : ConnLabel → Bytes
  | .turn t k => ((c.threads t).head?.map fun f => c.sock.sends f k).getD []
  | _ => []

def receives (c : Conn) : ConnLabel → Option Bytes
  | .turn t k => (c.threads t).head?.bind fun f => Socket.receives f k
  | _ => none

variable {c d : Conn} {a : ConnLabel}

/-- What a step adds to the history of the transfers. -/
structure Transfers (c : Conn) (a : ConnLabel) (d : Conn) : Prop where
  written : written d.log = written c.log ++ c.accepts a
  taken : taken d.log = taken c.log ++ c.sends a
  received : received d.log = received c.log ++ (c.receives a).getD []
  ends : .emitted .end ∈ d.log → .emitted .end ∈ c.log ∨ c.receives a = some []

theorem Transfers.silent (notes : List Note) (hlog : d.log = notes ++ c.log) (h : ∀ n ∈ notes, n.silent = true)
    (hw : c.accepts a = []) (hs : c.sends a = []) (hr : c.receives a = none) : c.Transfers a d := by
  obtain ⟨hwritten, htaken, hreceived, hend⟩ := silent_append h c.log
  refine ⟨by rw [hlog, hwritten, hw, List.append_nil], by rw [hlog, htaken, hs, List.append_nil], ?_, ?_⟩
  · rw [hlog, hreceived, hr, Option.getD_none, List.append_nil]
  · intro he
    rw [hlog] at he
    exact .inl ((List.mem_append.mp he).resolve_left hend)

theorem step_transfers (hd : c.step a = some d) : c.Transfers a d := by
  rcases step_spec hd with ⟨t, call, rfl, -, rfl⟩ | ⟨t, rest, rfl, -, rfl⟩ | ⟨t, k, f, rest, turn, rfl, hst, hturn, rfl⟩ |
    ⟨hd, r, rfl, -, -, rfl⟩ | ⟨addrs, rfl, rfl⟩ | ⟨addrs, deferred, rfl, -, -, rfl⟩
  · exact .silent [.called call] rfl (by simp [Note.silent]) rfl rfl rfl
  · exact .silent [] rfl (List.forall_mem_nil _) rfl rfl rfl
  · have ht := Socket.executed_transfers hturn
    have hhead : (c.threads t).head? = some f := by rw [hst, List.head?_cons]
    refine ⟨?_, ?_, ?_, ?_⟩
    · simpa [accepts, hhead, apply] using ht.written c.log
    · simpa [sends, hhead, apply] using ht.taken c.log
    · simpa [receives, hhead, apply] using ht.received c.log
    · intro he
      simp only [receives, hhead, Option.bind_some]
      rcases List.mem_append.mp he with he | he
      · exact .inr (ht.ends he)
      · exact .inl he
  · exact .silent [] rfl (List.forall_mem_nil _) rfl rfl rfl
  · exact .silent [] rfl (List.forall_mem_nil _) rfl rfl rfl
  · cases addrs with
    | nil => exact .silent _ rfl (by simp [connectResolved, Socket.fail, Socket.emit, Note.silent]) rfl rfl rfl
    | cons => exact .silent [] rfl (List.forall_mem_nil _) rfl rfl rfl

def isShutdown : Note → Bool
  | .shutdown _ => true
  | _ => false

def shut (c : Conn) : Bool := c.log.any isShutdown

/-- The kernel has marked the end of what the socket sent. -/
def hungUp (c : Conn) : Bool := c.shut || !valid c.sock.desc

theorem step_hungUp (hc : c.NoConnect) (hd : c.step a = some d) (h : c.hungUp = true) : d.hungUp = true := by
  rcases Bool.or_eq_true_iff.mp h with hs | hv
  · obtain ⟨notes, hlog⟩ := step_log hd
    rw [hungUp, shut, hlog, List.any_append, show c.log.any isShutdown = true from hs]
    simp
  · have := invalid_kept hc hd (by simpa using hv)
    simp [hungUp, this]

/-- Nothing is sent on a closed descriptor. -/
theorem sends_invalid (hd : c.step a = some d) (hv : valid c.sock.desc = false) : c.sends a = [] := by
  rcases step_spec hd with ⟨t, call, rfl, -, -⟩ | ⟨t, rest, rfl, -, -⟩ | ⟨t, k, f, rest, turn, rfl, hst, hturn, -⟩ |
    ⟨h, r, rfl, -, -, -⟩ | ⟨addrs, rfl, -⟩ | ⟨addrs, deferred, rfl, -, -, -⟩
  · rfl
  · rfl
  · simp only [sends, hst, List.head?_cons, Option.map_some, Option.getD_some]
    cases hturn with
    | pump hp _ => rw [hp hv]; rfl
    | _ => rfl
  · rfl
  · rfl
  · rfl

structure Established (c : Conn) : Prop where
  settled : c.NoConnect
  stream : Stream c.sock c.log
  unsent : taken c.log = []
  unread : received c.log = []
  unended : .emitted .end ∉ c.log

theorem accepted_established (wakeFd h : Handle) (peer : SocketAddress) : Established (accepted wakeFd h peer) where
  settled := ⟨rfl, rfl, fun _ => List.forall_mem_nil _⟩
  stream := ⟨Nat.le_refl _, rfl⟩
  unsent := rfl
  unread := rfl
  unended := List.not_mem_nil

end Conn

/-- Two sockets, with the bytes under way from the near one to the far one and back. -/
structure Link where
  near : Conn
  far : Conn
  out : Bytes := []
  back : Bytes := []

inductive Side where
  | near
  | far
  deriving DecidableEq, Repr

namespace Link

/-- What the kernels allow a side to do when `inn` is under way to it: no send after a
shutdown, and no byte that is not the next one. The connection is the only one the socket
makes. -/
def admits (me other : Conn) (inn : Bytes) (a : ConnLabel) : Bool :=
  (match a with
    | .call _ .connect => false
    | _ => true) &&
  ((me.sends a).isEmpty || !me.shut) &&
  match me.receives a with
  | none => true
  | some chunk => chunk.isPrefixOf inn && (!chunk.isEmpty || (inn.isEmpty && other.hungUp))

def swap (l : Link) : Link := { near := l.far, far := l.near, out := l.back, back := l.out }

def move (l : Link) (a : ConnLabel) : Option Link :=
  if admits l.near l.far l.back a then
    (l.near.step a).map fun near =>
      { l with near, out := l.out ++ l.near.sends a, back := l.back.drop ((l.near.receives a).getD []).length }
  else none

def step (l : Link) : Side × ConnLabel → Option Link
  | (.near, a) => l.move a
  | (.far, a) => (l.swap.move a).map swap

/-- What one direction of the connection keeps. -/
structure Carries (me other : Conn) (out : Bytes) : Prop where
  settled : me.NoConnect
  stream : Stream me.sock me.log
  bytes : taken me.log = received other.log ++ out
  ended : .emitted .end ∈ other.log → out = [] ∧ me.hungUp = true

variable {l l' : Link} {a : ConnLabel}

theorem move_spec (h : l.move a = some l') :
    (∀ t, a ≠ .call t .connect) ∧ (l.near.sends a ≠ [] → l.near.shut = false) ∧
    (∀ chunk, l.near.receives a = some chunk → chunk <+: l.back ∧ (chunk = [] → l.back = [] ∧ l.far.hungUp = true)) ∧
    ∃ near, l.near.step a = some near ∧
      l' = { l with near, out := l.out ++ l.near.sends a, back := l.back.drop ((l.near.receives a).getD []).length } := by
  obtain ⟨hg, h⟩ := Option.ite_none_right_eq_some.mp h
  obtain ⟨near, hnear, rfl⟩ := Option.map_eq_some_iff.mp h
  simp only [admits, Bool.and_eq_true] at hg
  obtain ⟨⟨hcall, hsend⟩, hrecv⟩ := hg
  refine ⟨?_, ?_, ?_, near, hnear, rfl⟩
  · rintro t rfl
    cases hcall
  · intro hne
    simpa [hne] using hsend
  · intro chunk hchunk
    simp only [hchunk, Bool.and_eq_true, List.isPrefixOf_iff_prefix] at hrecv
    refine ⟨hrecv.1, ?_⟩
    rintro rfl
    simpa using hrecv.2

/-- The sender's step: what the kernel takes is under way. -/
theorem move_carries_out (hc : Carries l.near l.far l.out) (h : l.move a = some l') : Carries l'.near l'.far l'.out := by
  obtain ⟨hcall, hsend, -, near, hstep, rfl⟩ := move_spec h
  have ht := Conn.step_transfers hstep
  refine ⟨Conn.step_noConnect hc.settled hcall hstep, Conn.step_stream hc.stream hstep, ?_, ?_⟩
  · rw [ht.taken, hc.bytes, List.append_assoc]
  · intro he
    obtain ⟨hout, hup⟩ := hc.ended he
    refine ⟨?_, Conn.step_hungUp hc.settled hstep hup⟩
    have hnone : l.near.sends a = [] := by
      by_contra hne
      rcases Bool.or_eq_true_iff.mp hup with hs | hv
      · rw [hsend hne] at hs
        cases hs
      · exact hne (Conn.sends_invalid hstep (by simpa using hv))
    rw [hout, hnone, List.append_nil]

/-- The receiver's step: what it gets was the next under way. -/
theorem move_carries_back (hc : Carries l.far l.near l.back) (h : l.move a = some l') :
    Carries l'.far l'.near l'.back := by
  obtain ⟨-, -, hrecv, near, hstep, rfl⟩ := move_spec h
  have ht := Conn.step_transfers hstep
  refine ⟨hc.settled, hc.stream, ?_, ?_⟩
  · rw [hc.bytes, ht.received, List.append_assoc]
    cases hr : l.near.receives a with
    | none => rfl
    | some chunk =>
        obtain ⟨rest, hrest⟩ := (hrecv chunk hr).1
        simp [← hrest]
  · intro he
    rcases ht.ends he with he | hr
    · obtain ⟨hback, hup⟩ := hc.ended he
      exact ⟨by rw [hback, List.drop_nil], hup⟩
    · obtain ⟨hback, hup⟩ := (hrecv [] hr).2 rfl
      exact ⟨by rw [hback, List.drop_nil], hup⟩

def Intact (l : Link) : Prop := Carries l.near l.far l.out ∧ Carries l.far l.near l.back

theorem step_intact {b : Side × ConnLabel} (hl : l.Intact) (h : l.step b = some l') : l'.Intact := by
  match b with
  | (.near, a) => exact ⟨move_carries_out hl.1 h, move_carries_back hl.2 h⟩
  | (.far, a) =>
      obtain ⟨m, hm, rfl⟩ := Option.map_eq_some_iff.mp h
      exact ⟨move_carries_back (l := l.swap) hl.1 hm, move_carries_out (l := l.swap) hl.2 hm⟩

theorem established_carries {me other : Conn} (hm : me.Established) (ho : other.Established) : Carries me other [] where
  settled := hm.settled
  stream := hm.stream
  bytes := by rw [hm.unsent, ho.unread, List.append_nil]
  ended he := absurd he ho.unended

theorem Carries.whole {me other : Conn} {out : Bytes} (hc : Carries me other out) :
    received other.log ++ out ++ me.sock.outbuf.drop me.sock.outOffset = written me.log := by
  rw [← hc.bytes, hc.stream.bytes]

/-- End to end, in both directions and in every interleaving of the two sides' threads: what
the listeners of 'data' have got, followed by what is under way and by what is still
buffered, is what the other side has written. When a side has emitted 'end', it has got
everything that the other side's kernel took. -/
theorem delivered_in_order {near far : Conn} {as : List (Side × ConnLabel)} (hn : near.Established)
    (hf : far.Established) (h : run step { near, far } as = some l) :
    (received l.far.log ++ l.out ++ l.near.sock.outbuf.drop l.near.sock.outOffset = written l.near.log ∧
      received l.near.log ++ l.back ++ l.far.sock.outbuf.drop l.far.sock.outOffset = written l.far.log) ∧
    (.emitted .end ∈ l.far.log → received l.far.log = taken l.near.log) ∧
      (.emitted .end ∈ l.near.log → received l.near.log = taken l.far.log) := by
  have hl : l.Intact := run_invariant (fun _ _ _ hi hs => step_intact hi hs)
    (⟨established_carries hn hf, established_carries hf hn⟩ : Intact { near, far }) h
  refine ⟨⟨hl.1.whole, hl.2.whole⟩, ?_, ?_⟩
  · intro he
    rw [hl.1.bytes, (hl.1.ended he).1, List.append_nil]
  · intro he
    rw [hl.2.bytes, (hl.2.ended he).1, List.append_nil]

/-- Three bytes go out in two sends and come in in two other chunks; the near side half-closes
and the far side sees the end. -/
def splitRun : List (Side × ConnLabel) :=
  [(.near, .call 0 (.write [1, 2, 3])), (.near, .turn 0 .none), (.near, .turn 0 (.sent 2)),
    (.far, .io 6 { readable := true }), (.far, .turn 0 .none), (.far, .turn 0 (.got [1])), (.far, .ret 0),
    (.near, .turn 0 (.sent 1)), (.near, .call 0 .end), (.near, .turn 0 .none),
    (.far, .turn 0 (.got [2, 3])), (.far, .ret 0), (.far, .turn 0 (.got []))]

theorem splitRun_delivers :
    ∃ l, run step { near := .accepted 3 5 { address := "" }, far := .accepted 4 6 { address := "" } } splitRun = some l ∧
      .emitted .end ∈ l.far.log ∧ received l.far.log = [1, 2, 3] ∧
      received l.far.log ++ l.out ++ l.near.sock.outbuf.drop l.near.sock.outOffset = written l.near.log := by
  refine ⟨_, rfl, by decide, rfl, ?_⟩
  exact (delivered_in_order (Conn.accepted_established 3 5 { address := "" }) (Conn.accepted_established 4 6 { address := "" })
    (h := (rfl : run step _ splitRun = _))).1.1

end Link
end CxNetworking.Tcp
