import CxNetworking.Lib.History
import CxNetworking.Tcp.Stream
import CxNetworking.Tcp.Threads

/-! Successive connections of one socket. A connection begins when `start_connect` stores
its descriptor; the buffer and `ended_` are carried over from the one before. -/
namespace CxNetworking.Tcp
open CxNetworking.Core Execution

namespace Socket

variable {κ δ : Type} {self : κ} {t : Nat} {loop : EventLoop κ δ} {s : Socket} {f : Frame} {answer : Kernel}
  {turn : Turn κ δ}

/-- What a turn has to do with `end`. -/
structure Ends (s : Socket) (f : Frame) (turn : Turn κ δ) : Prop where
  frames : .end ∉ turn.push
  ended : turn.obj.ended = s.ended ∨ f = .end ∧ turn.obj.ended = true
  shutdown : ∀ h, .shutdown h ∈ turn.notes → h = s.desc ∧
    (f = .end ∧ s.state = .open ∧ s.backlog = false ∨ (∃ r, f = .afterDrain r) ∧ s.ended = true)

theorem afterPump_ends {s' : Socket} {notes : List Note} {k : Caller} (hended : s'.ended = s.ended)
    (hnotes : ∀ h, .shutdown h ∉ notes) : Ends s f (afterPump t loop s' notes k) := by
  rcases afterPump_cases t loop s' k notes with
    ⟨-, -, heq⟩ | ⟨-, -, heq⟩ | ⟨r, -, -, heq⟩ | ⟨r, -, -, heq⟩ <;> rw [heq]
  · exact ⟨by simp, .inl hended, by simp [hnotes]⟩
  · exact ⟨by simp, .inl hended, by simp [hnotes]⟩
  · exact ⟨by rcases readHalf_eq r with hr | hr <;> simp [hr], .inl hended, by simp [hnotes]⟩
  · exact ⟨by simp, .inl hended, by simp [hnotes]⟩

theorem pumpOutput_ends {s' : Socket} {notes : List Note} {k : Caller} (hended : s'.ended = s.ended)
    (hnotes : ∀ h, .shutdown h ∉ notes) : Ends s f (pumpOutput t loop s' notes k) := by
  unfold pumpOutput
  split
  · exact ⟨by simp, .inl hended, by simp [hnotes]⟩
  · exact afterPump_ends hended hnotes

theorem executed_ends (h : Executed self t loop s f answer turn) : Ends s f turn := by
  cases h with
  | @write chunk =>
      rcases write_cases t loop s chunk with ⟨-, heq⟩ | ⟨-, -, heq⟩ | ⟨-, -, heq⟩ <;> rw [heq]
      · constructor <;> simp [fail, emit]
      · constructor <;> simp
      · exact pumpOutput_ends rfl (by simp)
  | pump _ h =>
      rcases pump_cases h with ⟨n, -, -, rfl⟩ | rfl | rfl | ⟨e, rfl⟩
      · exact pumpOutput_ends rfl (by simp)
      · exact afterPump_ends rfl (by simp)
      · constructor <;> simp
      · constructor <;> simp [fail, emit]
  | relock => exact afterPump_ends rfl (by simp)
  | pumpOutput => exact pumpOutput_ends rfl (by simp)
  | recv _ h => rcases recv_cases h with rfl | ⟨chunk, rfl⟩ | rfl | rfl | ⟨e, rfl⟩ <;> constructor <;> simp [fail, emit]
  | halfClose =>
      refine ⟨by simp [halfClose], .inr ⟨rfl, rfl⟩, ?_⟩
      intro h hn
      simp only [halfClose] at hn
      split at hn
      · next hs => exact ⟨by simpa using hn, .inl ⟨rfl, hs⟩⟩
      · cases hn
  | @afterDrain r =>
      refine ⟨?_, .inl rfl, ?_⟩
      · rcases readHalf_eq r with hr | hr <;> simp [afterDrain, hr]
      · intro h hn
        simp only [afterDrain] at hn
        split at hn
        · next hs => exact ⟨by simpa using hn, .inr ⟨⟨r, rfl⟩, hs⟩⟩
        · cases hn
  | @onIo r =>
      rcases readHalf_eq r with hr | hr <;> cases hs : s.state <;> cases hw : r.writable <;> constructor <;>
        simp [Socket.onIo, hs, hw, hr]
  | afterConnect =>
      unfold afterConnect
      split <;> constructor <;> simp
  | closeBegin =>
      refine ⟨?_, .inl rfl, by simp [closeBegin]⟩
      simp only [closeBegin]
      split <;> simp
  | refused | lowerConnected | lowerDrained | closeDesc | notOpened | blocking | unreachable =>
      constructor <;> simp [fail, emit]
  | raise | connected | setOpen | closeUnwatch | opened | nonblocking | connecting | storeConnect
    | watchConnect | dropLocal => constructor <;> simp [setOpen, storeConnect]

end Socket

/-- How long the log was when `connect` was last called, and when a descriptor was last
stored. -/
structure Epoch where
  called : Nat := 0
  stored : Nat := 0
  deriving DecidableEq, Repr

def Frame.Stores : Frame → Bool
  | .storeConnect _ _ => true
  | _ => false

namespace Conn

variable {c d : Conn} {a : ConnLabel} {g : Epoch}

def record (c : Conn) : ConnLabel → Epoch → Epoch
  | .call _ .connect, g => { g with called := c.log.length }
  | .turn t _, g => if (c.threads t).head?.any Frame.Stores then { g with stored := c.log.length } else g
  | _, g => g

def since (c : Conn) (n : Nat) : List Note := c.log.take (c.log.length - n)

theorem since_append {notes : List Note} {n : Nat} (hlog : d.log = notes ++ c.log) (hn : n ≤ c.log.length) :
    d.since n = notes ++ c.since n := by
  unfold since
  rw [hlog, List.length_append, Nat.add_sub_assoc hn, List.take_length_add_append]

theorem since_subset (n : Nat) : c.since n ⊆ c.log := List.take_subset _ _

theorem since_length : c.since c.log.length = [] := by simp [since]

theorem step_log (hd : c.step a = some d) : ∃ notes, d.log = notes ++ c.log := by
  rcases step_spec hd with ⟨t, call, -, -, rfl⟩ | ⟨t, rest, -, -, rfl⟩ | ⟨t, k, f, rest, turn, -, -, -, rfl⟩ |
    ⟨hd, r, -, -, -, rfl⟩ | ⟨addrs, -, rfl⟩ | ⟨addrs, deferred, -, -, -, rfl⟩
  · exact ⟨[_], rfl⟩
  · exact ⟨[], rfl⟩
  · exact ⟨turn.notes, rfl⟩
  · exact ⟨[], rfl⟩
  · exact ⟨[], rfl⟩
  · exact ⟨_, rfl⟩

/-! Nothing is shut down before `end` is called. -/

structure EndCalled (c : Conn) : Prop where
  ended : c.sock.ended = true → .called .end ∈ c.log
  ending : ∀ t, .end ∈ c.threads t → .called .end ∈ c.log
  shutdown : ∀ h, .shutdown h ∈ c.log → .called .end ∈ c.log

theorem initial_endCalled (h : Initial c) : c.EndCalled := by
  cases h <;> constructor <;> simp [create, accepted]

theorem step_endCalled (h : c.EndCalled) (hd : c.step a = some d) : d.EndCalled := by
  obtain ⟨notes, hlog⟩ := step_log hd
  have hmore : .called .end ∈ c.log → .called .end ∈ d.log := fun hm => hlog ▸ List.mem_append_right _ hm
  refine ⟨?_, ?_, ?_⟩
  · intro hended
    rcases step_sock hd with hsock | ⟨t, f, turn, k, rest, -, hst, hturn, rfl⟩
    · exact hmore (h.ended (hsock ▸ hended))
    · rcases (Socket.executed_ends hturn).ended with hsame | ⟨rfl, -⟩
      · exact hmore (h.ended (hsame ▸ hended))
      · exact hmore (h.ending t (by simp [hst]))
  · intro t ht
    rcases mem_step hd ht with hold | ⟨call, rfl, hcall⟩ | ⟨f, turn, ⟨k, rest, -, -, hturn, -⟩, hpush⟩ | ⟨-, hnew⟩
    · exact hmore (h.ending t hold)
    · obtain ⟨-, hd⟩ := Option.ite_none_right_eq_some.mp hd
      cases hd
      cases call with
      | «end» => exact List.mem_cons_self
      | connect | write | destroy => simp [Call.frames] at hcall
    · exact ((Socket.executed_ends hturn).frames hpush).elim
    · simp at hnew
  · intro hd' hs
    rcases step_spec hd with ⟨t, call, -, -, rfl⟩ | ⟨t, rest, -, -, rfl⟩ | ⟨t, k, f, rest, turn, -, hst, hturn, rfl⟩ |
      ⟨_, r, -, -, -, rfl⟩ | ⟨addrs, -, rfl⟩ | ⟨addrs, deferred, -, -, -, rfl⟩
    · exact hmore (h.shutdown hd' (by simpa using hs))
    · exact h.shutdown hd' hs
    · rcases List.mem_append.mp hs with hs | hs
      · rcases ((Socket.executed_ends hturn).shutdown hd' hs).2 with ⟨rfl, -⟩ | ⟨-, hended⟩
        · exact hmore (h.ending t (by simp [hst]))
        · exact hmore (h.ended hended)
      · exact hmore (h.shutdown hd' hs)
    · exact h.shutdown hd' hs
    · exact h.shutdown hd' hs
    · refine hmore (h.shutdown hd' ?_)
      cases addrs with
      | nil => simpa [apply, connectResolved, Socket.fail, Socket.emit] using hs
      | cons addr addrs => exact hs

/-- `connect` is not called after `end`, and no unsent bytes are left when a new descriptor
is stored. -/
def KeepsApart (c : Conn) : ConnLabel → Prop
  | .call _ call => call = .connect → .called .end ∉ c.log
  | .turn t _ => (c.threads t).head?.any Frame.Stores = true → c.sock.backlog = false
  | .ret _ | .io _ _ | .resolved _ | .deferred => True

instance (c : Conn) (a : ConnLabel) : Decidable (c.KeepsApart a) :=
  match a with
  | .call _ _ | .turn _ _ => inferInstanceAs (Decidable (_ → _))
  | .ret _ | .io _ _ | .resolved _ | .deferred => isTrue trivial

/-- The stream since the descriptor was stored, and `end` since `connect` was called. -/
structure Separate (c : Conn) (g : Epoch) : Prop where
  called_le : g.called ≤ c.log.length
  stored_le : g.stored ≤ c.log.length
  endCalled : c.EndCalled
  stream : Stream c.sock (c.since g.stored)
  late : .called .end ∈ c.log → .called .end ∈ c.since g.called

theorem initial_separate (h : Initial c) : Separate c {} := by
  refine ⟨Nat.zero_le _, Nat.zero_le _, initial_endCalled h, ?_, ?_⟩
  · cases h <;> exact ⟨Nat.le_refl _, rfl⟩
  · simp [since]

theorem Separate.grow (h : Separate c g) (notes : List Note) (hlog : d.log = notes ++ c.log) (hend : d.EndCalled)
    (hstream : Stream d.sock (notes ++ c.since g.stored)) : Separate d g := by
  have hle : c.log.length ≤ d.log.length := by rw [hlog, List.length_append]; exact Nat.le_add_left _ _
  refine ⟨Nat.le_trans h.called_le hle, Nat.le_trans h.stored_le hle, hend, ?_, ?_⟩
  · rwa [since_append hlog h.stored_le]
  · rw [since_append hlog h.called_le, hlog]
    exact fun hm => List.mem_append.mpr ((List.mem_append.mp hm).imp_right h.late)

theorem Separate.same (h : Separate c g) (hlog : d.log = c.log) (hbuf : d.sock.outbuf = c.sock.outbuf)
    (hoff : d.sock.outOffset = c.sock.outOffset) (hend : d.EndCalled) : Separate d g :=
  h.grow [] hlog hend (h.stream.still hbuf hoff (by simp))

theorem Separate.connect (h : Separate c g) (hok : .called .end ∉ c.log) (hlog : d.log = .called .connect :: c.log)
    (hsock : d.sock = c.sock) (hend : d.EndCalled) : Separate d { g with called := c.log.length } := by
  have hsep : Separate d g :=
    h.grow [.called .connect] hlog hend (h.stream.still (by rw [hsock]) (by rw [hsock]) (by simp [Note.Still]))
  refine ⟨by simp [hlog], hsep.stored_le, hend, hsep.stream, fun hm => ?_⟩
  rw [hlog] at hm
  exact (hok (by simpa using hm)).elim

theorem Separate.store (h : Separate c g) (hempty : c.sock.backlog = false) (hlog : d.log = c.log)
    (hbuf : d.sock.outbuf = c.sock.outbuf) (hoff : d.sock.outOffset = c.sock.outOffset) (hend : d.EndCalled) :
    Separate d { g with stored := c.log.length } := by
  have hsep : Separate d g := h.same hlog hbuf hoff hend
  refine ⟨hsep.called_le, by simp [hlog], hend, ?_, hsep.late⟩
  rw [← hlog, since_length]
  refine ⟨hsep.stream.bound, ?_⟩
  have hdone : c.sock.outbuf.length ≤ c.sock.outOffset := by simpa [Socket.backlog] using hempty
  rw [hbuf, hoff, List.drop_eq_nil_of_le hdone]
  rfl

theorem step_separate (h : Separate c g) (hok : c.KeepsApart a) (hd : c.step a = some d) :
    Separate d (c.record a g) := by
  have hend := step_endCalled h.endCalled hd
  rcases step_spec hd with ⟨t, call, rfl, -, rfl⟩ | ⟨t, rest, rfl, -, rfl⟩ | ⟨t, k, f, rest, turn, rfl, hst, hturn, rfl⟩ |
    ⟨hd, r, rfl, -, -, rfl⟩ | ⟨addrs, rfl, rfl⟩ | ⟨addrs, deferred, rfl, -, -, rfl⟩
  · cases call with
    | connect => exact h.connect (hok rfl) rfl rfl hend
    | write | «end» | destroy =>
        exact h.grow [_] rfl hend (h.stream.still rfl rfl (by simp [Note.Still]))
  · exact h.same rfl rfl rfl hend
  · simp only [KeepsApart, hst, List.head?_cons, Option.any_some] at hok
    simp only [record, hst, List.head?_cons, Option.any_some]
    split
    · next hstore =>
        cases f with
        | storeConnect addr desc =>
            cases hturn
            exact h.store (hok rfl) rfl rfl rfl hend
        | _ => cases hstore
    · exact h.grow turn.notes rfl hend (Socket.executed_stream h.stream hturn)
  · exact h.same rfl rfl rfl hend
  · exact h.same rfl rfl rfl hend
  · refine h.grow _ rfl hend ?_
    cases addrs with
    | nil => exact h.stream.still rfl rfl (by simp [connectResolved, Socket.fail, Socket.emit, Note.Still])
    | cons addr addrs => exact h.stream.still rfl rfl (by simp [connectResolved])

/-- In every run in which `connect` is not called after `end`, and a descriptor is stored
only with nothing left to send, the kernel gets on each connection a prefix of what was
written while it was open, and a connection is half-closed only if `end` was called after
`connect`. -/
theorem connections_apart {c d : Conn} (hc : Initial c) {as : List ConnLabel} (hok : Along step KeepsApart c as)
    (hd : run step c as = some d) :
    taken (d.since (history step record c as {}).stored) <+: written (d.since (history step record c as {}).stored) ∧
    ∀ h, .shutdown h ∈ d.since (history step record c as {}).stored →
      .called .end ∈ d.since (history step record c as {}).called := by
  have hsep := history_invariant (fun _ _ _ _ => step_separate) (initial_separate hc) hok hd
  exact ⟨⟨_, hsep.stream.bytes⟩, fun h hs => hsep.late (hsep.endCalled.shutdown h (since_subset _ hs))⟩

/-- A `connect` on the loop thread that gets the descriptor `h` and succeeds. -/
def dial (h : Handle) : List ConnLabel :=
  [.call 0 .connect, .resolved [{ address := "10.0.0.1", port := 80 }], .deferred, .turn 0 (.opened h),
    .turn 0 (.status .success), .turn 0 (.status .inProgress), .turn 0 .none, .turn 0 .none,
    .io h { writable := true }, .turn 0 .none, .turn 0 (.status .success), .turn 0 .none, .turn 0 .none, .ret 0,
    .turn 0 .none]

def hangUp (h : Handle) : List ConnLabel :=
  [.io h { readable := true }, .turn 0 .none, .turn 0 (.got []), .ret 0, .turn 0 .none, .turn 0 .none, .turn 0 .none,
    .ret 0]

/-- Two connections; the second is half-closed. -/
def redialled : List ConnLabel :=
  dial 5 ++ [.call 0 (.write [1, 2]), .turn 0 .none, .turn 0 (.sent 2)] ++ hangUp 5 ++
    dial 6 ++ [.call 0 (.write [3]), .turn 0 .none, .turn 0 (.sent 1), .call 0 .end, .turn 0 .none]

theorem redialled_apart :
    ∃ d, run step (create 3) redialled = some d ∧
      taken (d.since (history step record (create 3) redialled {}).stored) = [3] ∧
      .shutdown 6 ∈ d.since (history step record (create 3) redialled {}).stored ∧
      taken (d.since (history step record (create 3) redialled {}).stored) <+:
        written (d.since (history step record (create 3) redialled {}).stored) ∧
      .called .end ∈ d.since (history step record (create 3) redialled {}).called := by
  have hfacts : (run step (create 3) redialled).map (fun d =>
      (taken (d.since (history step record (create 3) redialled {}).stored),
        decide (.shutdown 6 ∈ d.since (history step record (create 3) redialled {}).stored))) = some ([3], true) := by
    decide +kernel
  obtain ⟨d, hd, hfacts⟩ := Option.map_eq_some_iff.mp hfacts
  simp only [Prod.mk.injEq, decide_eq_true_eq] at hfacts
  obtain ⟨hpre, hend⟩ := connections_apart (.created 3) (by decide +kernel) hd
  exact ⟨d, hd, hfacts.1, hfacts.2, hpre, hend 6 hfacts.2⟩

/-- The first connection is lost with unsent bytes and a half-close still to do. -/
def redialledFull : List ConnLabel :=
  dial 5 ++ [.call 0 (.write [1, 2]), .turn 0 .none, .turn 0 (.failed .again), .turn 0 .none, .call 0 .end, .turn 0 .none] ++
    hangUp 5 ++ dial 6 ++
    [.turn 0 .none, .io 6 { writable := true }, .turn 0 .none, .turn 0 .none, .turn 0 (.sent 2), .turn 0 .none, .ret 0,
      .turn 0 .none]

/-- The second peer gets the bytes written to the first, and is half-closed without a call
of `end`. -/
theorem redialledFull_leaks :
    ∃ d, run step (create 3) redialledFull = some d ∧
      taken (d.since (history step record (create 3) redialledFull {}).stored) = [1, 2] ∧
      written (d.since (history step record (create 3) redialledFull {}).stored) = [] ∧
      .shutdown 6 ∈ d.since (history step record (create 3) redialledFull {}).stored ∧
      .called .end ∉ d.since (history step record (create 3) redialledFull {}).called := by
  have hfacts : (run step (create 3) redialledFull).map (fun d =>
      (taken (d.since (history step record (create 3) redialledFull {}).stored),
        written (d.since (history step record (create 3) redialledFull {}).stored),
        decide (.shutdown 6 ∈ d.since (history step record (create 3) redialledFull {}).stored),
        decide (.called .end ∉ d.since (history step record (create 3) redialledFull {}).called))) =
      some ([1, 2], [], true, true) := by
    decide +kernel
  obtain ⟨d, hd, hfacts⟩ := Option.map_eq_some_iff.mp hfacts
  simp only [Prod.mk.injEq, decide_eq_true_eq] at hfacts
  exact ⟨d, hd, hfacts⟩

end Conn
end CxNetworking.Tcp
