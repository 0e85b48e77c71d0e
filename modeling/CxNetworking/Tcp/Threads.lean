import CxNetworking.Tcp.Frames

/-! How the frames of a socket's threads change in a step, and what holds of them in every
run: where they lie, which thread holds the mutex, and what is left of a `connect`. -/
namespace CxNetworking.Tcp
open CxNetworking.Core

/-- The frames that hold the socket's mutex. -/
def Frame.Holding : Frame → Prop
  | .pump _ | .raise => True
  | _ => False

theorem Frame.Holding.not_resting {f : Frame} (h : f.Holding) : ¬ f.Resting := by
  cases f with
  | pump | raise => exact id
  | user | write | relock | «end» | onIo | pendingError | setOpen | lowerConnected | afterConnect | pumpOutput
    | lowerDrained | afterDrain | recv | closeBegin | closeUnwatch | closeDesc | openSocket | setNonblocking | connectTo
    | storeConnect | watchConnect | dropLocal => exact h.elim

/-- The frames of `start_connect` up to the one that stores the new descriptor. -/
def Frame.Starting : Frame → Prop
  | .openSocket _ | .setNonblocking _ _ | .connectTo _ _ | .storeConnect _ _ => True
  | _ => False

def Frame.Entry : Frame → Prop
  | .user | .write _ | .end | .closeBegin | .onIo _ | .openSocket _ => True
  | _ => False

namespace Socket

variable {κ δ : Type} {self : κ} {t : Nat} {loop : EventLoop κ δ} {s : Socket} {f : Frame} {answer : Kernel}
  {turn : Turn κ δ}

/-- What a turn does to the mutex, and which of its frames go on with a `connect`. -/
structure Owns (t : Nat) (s : Socket) (f : Frame) (turn : Turn κ δ) : Prop where
  holding : ∀ g ∈ turn.push, g.Holding → turn.obj.mutex = some t ∨ f.Holding ∧ turn.obj.mutex = s.mutex
  mutex : turn.obj.mutex = s.mutex ∨ s.mutex = none ∨ f.Holding
  starting : ∀ g ∈ turn.push, g.Starting → f.Starting

theorem afterPump_owns {notes : List Note} {k : Caller} (h : s.mutex = none ∨ f.Holding) :
    Owns t s f (afterPump t loop s notes k) := by
  rcases afterPump_cases t loop s k notes with
    ⟨-, -, heq⟩ | ⟨-, -, heq⟩ | ⟨r, -, -, heq⟩ | ⟨r, -, -, heq⟩ <;> rw [heq]
  · exact ⟨by simp, .inr h, by simp [Frame.Starting]⟩
  · exact ⟨by simp, .inr h, by simp⟩
  · refine ⟨?_, .inr h, ?_⟩ <;> rcases readHalf_eq r with hr | hr <;> simp [hr, Frame.Holding, Frame.Starting]
  · exact ⟨by simp [Frame.Holding], .inr h, by simp [Frame.Starting]⟩

theorem pumpOutput_owns {s' : Socket} {notes : List Note} {k : Caller} (h : s.mutex = none ∨ f.Holding) :
    Owns t s f (pumpOutput t loop s' notes k) := by
  rcases pumpOutput_cases t loop s' k notes with ⟨-, heq⟩ | ⟨-, push, heq, hpush⟩ <;> rw [heq]
  · exact ⟨by simp, .inr h, by simp [Frame.Starting]⟩
  · rcases hpush with ⟨-, rfl⟩ | ⟨r, -, rfl⟩
    · exact ⟨by simp, .inr h, by simp⟩
    · exact ⟨by simp [Frame.Holding], .inr h, by simp [Frame.Starting]⟩

theorem executed_owns (h : Executed self t loop s f answer turn) : Owns t s f turn := by
  cases h with
  | @write chunk hm =>
      rcases write_cases t loop s chunk with ⟨-, heq⟩ | ⟨-, -, heq⟩ | ⟨-, -, heq⟩ <;> rw [heq]
      · exact ⟨by simp [fail, emit, Frame.Holding], .inl rfl, by simp [fail, emit, Frame.Starting]⟩
      · exact ⟨by simp, .inr (.inl hm), by simp [Frame.Starting]⟩
      · exact pumpOutput_owns (.inl hm)
  | pump _ h =>
      rcases pump_cases h with ⟨n, -, -, rfl⟩ | rfl | rfl | ⟨e, rfl⟩
      · exact pumpOutput_owns (.inr trivial)
      · exact afterPump_owns (.inr trivial)
      · exact ⟨by simp [Frame.Holding], .inl rfl, by simp [Frame.Starting]⟩
      · exact ⟨by simp [fail, emit, Frame.Holding], .inr (.inr trivial), by simp [fail, emit, Frame.Starting]⟩
  | relock hm => exact afterPump_owns (.inl hm)
  | pumpOutput hm => exact pumpOutput_owns (.inl hm)
  | recv _ h =>
      rcases recv_cases h with rfl | ⟨chunk, rfl⟩ | rfl | rfl | ⟨e, rfl⟩ <;>
        exact ⟨by simp [fail, emit, Frame.Holding], .inl rfl, by simp [fail, emit, Frame.Starting]⟩
  | halfClose => exact ⟨by simp [halfClose], .inl rfl, by simp [halfClose]⟩
  | @onIo r =>
      rcases readHalf_eq r with hr | hr <;> cases hs : s.state <;> cases hw : r.writable <;>
        exact ⟨by simp [Socket.onIo, hs, hw, hr, Frame.Holding], .inl rfl,
          by simp [Socket.onIo, hs, hw, hr, Frame.Starting]⟩
  | @afterDrain r =>
      refine ⟨?_, .inl rfl, ?_⟩ <;> rcases readHalf_eq r with hr | hr <;>
        simp [afterDrain, hr, Frame.Holding, Frame.Starting]
  | afterConnect hm =>
      unfold afterConnect
      split
      · exact ⟨by simp, .inr (.inl hm), by simp [Frame.Starting]⟩
      · exact ⟨by simp, .inl rfl, by simp⟩
  | closeBegin =>
      refine ⟨?_, .inl rfl, ?_⟩ <;> simp only [closeBegin] <;> split <;> simp [Frame.Holding, Frame.Starting]
  | raise => exact ⟨by simp, .inr (.inr trivial), by simp⟩
  | refused | lowerConnected | lowerDrained | closeDesc | notOpened | blocking | unreachable =>
      exact ⟨by simp [fail, emit, Frame.Holding], .inl rfl, by simp [fail, emit, Frame.Starting]⟩
  | connected | setOpen | closeUnwatch | opened | nonblocking | connecting | storeConnect | watchConnect | dropLocal =>
      exact ⟨by simp [setOpen, storeConnect, Frame.Holding], .inl rfl,
        by simp [setOpen, storeConnect, Frame.Starting]⟩

/-- A turn keeps the descriptor, closes it, or stores the one of a new connection. -/
theorem executed_desc (h : Executed self t loop s f answer turn) :
    turn.obj.desc = s.desc ∨ f = .closeDesc ∧ turn.obj = { s with desc := invalidHandle } ∨
      ∃ d addr, f = .storeConnect d addr ∧ turn.obj.state = .connecting := by
  cases executed_registration h with
  | kept hdesc | raised hdesc | lowered _ hdesc => exact .inl hdesc
  | unwatched hobj | watched hobj => exact .inl (by rw [hobj])
  | closed hobj => exact .inr (.inl ⟨rfl, hobj⟩)
  | @stored d addr _ hobj => exact .inr (.inr ⟨d, addr, rfl, by rw [hobj]⟩)

theorem executed_deferred (h : Executed self t loop s f answer turn) : turn.loop.deferred = loop.deferred := by
  have hmodify : ∀ events, (loop.modify s.desc events).deferred = loop.deferred := by
    intro events
    unfold EventLoop.modify EventLoop.setInterest
    cases loop.watches[s.desc]? <;> rfl
  cases executed_registration h with
  | kept _ hloop | closed _ hloop | stored _ hloop => rw [hloop]
  | raised _ hloop | lowered _ _ hloop => rw [hloop, hmodify]
  | unwatched _ hloop | watched _ hloop => rw [hloop]; rfl

end Socket

namespace Conn

section Apply

variable {c : Conn} {t : Nat} {f : Frame} {rest : List Frame} {turn : Turn Unit (List SocketAddress)}

theorem mem_apply {u : Nat} {g : Frame} (hg : g ∈ (c.apply t rest turn).threads u) :
    (u = t ∧ g ∈ turn.push) ∨ (u = t ∧ g ∈ rest) ∨ (u ≠ t ∧ g ∈ c.threads u) := by
  simp only [apply, Function.update_apply] at hg
  split at hg
  · next hu => exact (List.mem_append.mp hg).imp (⟨hu, ·⟩) fun hg => .inl ⟨hu, hg⟩
  · next hu => exact .inr (.inr ⟨hu, hg⟩)

theorem mem_apply_push {g : Frame} (hg : g ∈ turn.push) : g ∈ (c.apply t rest turn).threads t := by
  simp only [apply, Function.update_self]
  exact List.mem_append_left _ hg

theorem mem_apply_of_ne {u : Nat} {g : Frame} (hst : c.threads t = f :: rest) (hg : g ∈ c.threads u) (hne : g ≠ f) :
    g ∈ (c.apply t rest turn).threads u := by
  simp only [apply, Function.update_apply]
  split
  · next hu =>
      rw [hu, hst] at hg
      exact List.mem_append_right _ ((List.mem_cons.mp hg).resolve_left hne)
  · exact hg

end Apply

variable {c d : Conn} {a : ConnLabel}

/-- The step is a turn of thread `t` at the frame `f`. -/
def Takes (c : Conn) (a : ConnLabel) (d : Conn) (t : Nat) (f : Frame) (turn : Turn Unit (List SocketAddress)) : Prop :=
  ∃ k rest, a = .turn t k ∧ c.threads t = f :: rest ∧ Socket.Executed () t c.loop c.sock f k turn ∧ d = c.apply t rest turn

theorem Takes.mem {t : Nat} {f : Frame} {turn : Turn Unit (List SocketAddress)} (h : c.Takes a d t f turn) :
    f ∈ c.threads t := by
  obtain ⟨k, rest, -, hst, -⟩ := h
  simp [hst]

theorem Takes.executed {t : Nat} {f : Frame} {turn : Turn Unit (List SocketAddress)} (h : c.Takes a d t f turn) :
    ∃ k, Socket.Executed () t c.loop c.sock f k turn := by
  obtain ⟨k, rest, -, -, hturn, -⟩ := h
  exact ⟨k, hturn⟩

/-- Only a turn touches the socket. -/
theorem step_sock (hd : c.step a = some d) : d.sock = c.sock ∨ ∃ t f turn, c.Takes a d t f turn := by
  rcases step_spec hd with ⟨t, call, -, -, rfl⟩ | ⟨t, rest, -, -, rfl⟩ | ⟨t, k, f, rest, turn, ha, hst, hturn, heq⟩ |
    ⟨h, r, -, -, -, rfl⟩ | ⟨addrs, -, rfl⟩ | ⟨addrs, deferred, -, -, -, rfl⟩
  · exact .inl rfl
  · exact .inl rfl
  · exact .inr ⟨t, f, turn, k, rest, ha, hst, hturn, heq⟩
  · exact .inl rfl
  · exact .inl rfl
  · cases addrs <;> exact .inl rfl

theorem mem_step (hd : c.step a = some d) {u : Nat} {g : Frame} (hg : g ∈ d.threads u) :
    g ∈ c.threads u ∨ (∃ call, a = .call u call ∧ g ∈ call.frames) ∨
    (∃ f turn, c.Takes a d u f turn ∧ g ∈ turn.push) ∨
    u = loopThread ∧ ((∃ r, g = .onIo r) ∨ g = .user ∨ g = .closeBegin ∨
      (a = .deferred ∧ c.loop.deferred ≠ []) ∧ ∃ addr, g = .openSocket addr) := by
  rcases step_spec hd with ⟨t, call, rfl, -, rfl⟩ | ⟨t, rest, -, hst, rfl⟩ | ⟨t, k, f, rest, turn, ha, hst, hturn, heq⟩ |
    ⟨h, r, -, -, -, rfl⟩ | ⟨addrs, -, rfl⟩ | ⟨addrs, deferred, ha, hst, hdef, rfl⟩
  · simp only [Function.update_apply] at hg
    split at hg
    · next hu =>
        subst hu
        exact (List.mem_append.mp hg).symm.imp_right fun hg => .inl ⟨call, rfl, hg⟩
    · exact .inl hg
  · simp only [Function.update_apply] at hg
    split at hg
    · next hu => exact .inl (by simp [hu, hst, hg])
    · exact .inl hg
  · rcases mem_apply (heq ▸ hg) with ⟨rfl, hg⟩ | ⟨rfl, hg⟩ | ⟨-, hg⟩
    · exact .inr (.inr (.inl ⟨f, turn, ⟨k, rest, ha, hst, hturn, heq⟩, hg⟩))
    · exact .inl (by simp [hst, hg])
    · exact .inl hg
  · simp only [Function.update_apply] at hg
    split at hg
    · next hu => exact .inr (.inr (.inr ⟨hu, .inl ⟨r, List.mem_singleton.mp hg⟩⟩))
    · exact .inl hg
  · exact .inl hg
  · rcases mem_apply hg with ⟨rfl, hg⟩ | ⟨-, hg⟩ | ⟨-, hg⟩
    · refine .inr (.inr (.inr ⟨rfl, .inr ?_⟩))
      cases addrs with
      | nil =>
          rcases List.mem_cons.mp hg with rfl | hg
          · exact .inl rfl
          · exact .inr (.inl (List.mem_singleton.mp hg))
      | cons addr addrs => exact .inr (.inr ⟨⟨ha, by simp [hdef]⟩, addr, List.mem_singleton.mp hg⟩)
    · cases hg
    · exact .inl hg

/-- A frame other than `user` stays until its own turn. -/
theorem step_keeps (hd : c.step a = some d) {u : Nat} {g : Frame} (hg : g ∈ c.threads u) (hu : g ≠ .user) :
    g ∈ d.threads u ∨ ∃ turn, c.Takes a d u g turn := by
  rcases step_spec hd with ⟨t, call, -, -, rfl⟩ | ⟨t, rest, -, hst, rfl⟩ | ⟨t, k, f, rest, turn, ha, hst, hturn, heq⟩ |
    ⟨h, r, -, hst, -, rfl⟩ | ⟨addrs, -, rfl⟩ | ⟨addrs, deferred, -, hst, -, rfl⟩
  · refine .inl ?_
    simp only [Function.update_apply]
    split
    · next ht => exact List.mem_append_right _ (ht ▸ hg)
    · exact hg
  · refine .inl ?_
    simp only [Function.update_apply]
    split
    · next ht =>
        rw [ht, hst] at hg
        exact (List.mem_cons.mp hg).resolve_left hu
    · exact hg
  · by_cases hut : u = t ∧ g = f
    · obtain ⟨rfl, rfl⟩ := hut
      exact .inr ⟨turn, k, rest, ha, hst, hturn, heq⟩
    · refine .inl ?_
      rw [heq]
      simp only [apply, Function.update_apply]
      split
      · next ht =>
          rw [ht, hst] at hg
          exact List.mem_append_right _ ((List.mem_cons.mp hg).resolve_left fun hgf => hut ⟨ht, hgf⟩)
      · exact hg
  · refine .inl ?_
    simp only [Function.update_apply]
    split
    · next ht => simp [ht, hst] at hg
    · exact hg
  · exact .inl hg
  · refine .inl ?_
    simp only [apply, Function.update_apply]
    split
    · next ht => simp [ht, hst] at hg
    · exact hg

/-- Only a call of the user is logged as one. -/
theorem called_step (hd : c.step a = some d) {call : Call} (h : .called call ∈ d.log) :
    .called call ∈ c.log ∨ ∃ t, a = .call t call := by
  rcases step_spec hd with ⟨t, call', rfl, -, rfl⟩ | ⟨t, rest, -, -, rfl⟩ | ⟨t, k, f, rest, turn, -, -, hturn, rfl⟩ |
    ⟨hd, r, -, -, -, rfl⟩ | ⟨addrs, -, rfl⟩ | ⟨addrs, deferred, -, -, -, rfl⟩
  · rcases List.mem_cons.mp h with h | h
    · cases h
      exact .inr ⟨t, rfl⟩
    · exact .inl h
  · exact .inl h
  · refine .inl ((List.mem_append.mp h).resolve_left fun hn => ?_)
    rcases Socket.executed_plain hturn with ⟨e, rest, hnotes, -, -⟩ | ⟨hinert, -⟩
    · simp [hnotes] at hn
    · exact hinert _ hn
  · exact .inl h
  · exact .inl h
  · refine .inl ?_
    cases addrs with
    | nil => simpa [apply, connectResolved, Socket.fail, Socket.emit] using h
    | cons addr addrs => exact h

/-- A step other than a turn leaves the socket and the frames alone, and lets threads enter
methods. -/
structure Enters (c : Conn) (a : ConnLabel) (d : Conn) : Prop where
  label : ∀ t k, a ≠ .turn t k
  sock : d.sock = c.sock
  keeps : ∀ u, ∀ g ∈ c.threads u, g ≠ .user → g ∈ d.threads u
  enters : ∀ u, ∀ g ∈ d.threads u, g ∈ c.threads u ∨ g.Entry

theorem step_kinds (hd : c.step a = some d) : (∃ t f turn, c.Takes a d t f turn) ∨ c.Enters a d := by
  by_cases hturn : ∃ t f turn, c.Takes a d t f turn
  · exact .inl hturn
  · refine .inr ⟨?_, (step_sock hd).resolve_right hturn, fun u g hg hu => ?_, fun u g hg => ?_⟩
    · rintro t k rfl
      rcases step_spec hd with ⟨_, _, ha, -⟩ | ⟨_, _, ha, -⟩ | ⟨t, k, f, rest, turn, ha, hst, hexec, heq⟩ |
        ⟨_, _, ha, -⟩ | ⟨_, ha, -⟩ | ⟨_, _, ha, -⟩
      · cases ha
      · cases ha
      · exact hturn ⟨t, f, turn, k, rest, ha, hst, hexec, heq⟩
      · cases ha
      · cases ha
      · cases ha
    · exact (step_keeps hd hg hu).resolve_right fun ⟨turn, htakes⟩ => hturn ⟨u, g, turn, htakes⟩
    · rcases mem_step hd hg with hg | ⟨call, -, hg⟩ | ⟨f, turn, htakes, -⟩ | ⟨-, hg⟩
      · exact .inl hg
      · refine .inr ?_
        cases call with
        | connect => cases hg
        | write | «end» | destroy =>
            cases List.mem_singleton.mp hg
            trivial
      · exact (hturn ⟨u, f, turn, htakes⟩).elim
      · refine .inr ?_
        rcases hg with ⟨r, rfl⟩ | rfl | rfl | ⟨-, addr, rfl⟩ <;> trivial

/-- A thread that is not in user code goes on with its top frame, and nothing else. -/
theorem step_stack (hd : c.step a = some d) {u : Nat} {f : Frame} {st : List Frame} (hst : c.threads u = f :: st)
    (hf : f ≠ .user) :
    d.threads u = f :: st ∨
      ∃ k turn, a = .turn u k ∧ Socket.Executed () u c.loop c.sock f k turn ∧ d = c.apply u st turn := by
  have hother : ∀ {t : Nat} {fs : List Frame}, t ≠ u → Function.update c.threads t fs u = f :: st :=
    fun ht => (Function.update_of_ne (Ne.symm ht) _ _).trans hst
  rcases step_spec hd with ⟨t, call, -, hin, rfl⟩ | ⟨t, rest, -, ht, rfl⟩ | ⟨t, k, g, rest, turn, ha, ht, hturn, heq⟩ |
    ⟨h, r, -, ht, -, rfl⟩ | ⟨addrs, -, rfl⟩ | ⟨addrs, deferred, -, ht, -, rfl⟩
  · refine .inl (hother ?_)
    rintro rfl
    unfold inUser at hin
    split at hin <;> simp_all
  · refine .inl (hother ?_)
    rintro rfl
    rw [hst] at ht
    exact hf (List.cons.inj ht).1
  · by_cases htu : t = u
    · subst htu
      rw [hst] at ht
      cases ht
      exact .inr ⟨k, turn, ha, hturn, heq⟩
    · exact .inl (heq ▸ hother htu)
  · refine .inl (hother ?_)
    rintro rfl
    simp [hst] at ht
  · exact .inl hst
  · refine .inl (hother ?_)
    rintro rfl
    simp [hst] at ht

/-- What is on the threads in every run. -/
structure Layered (c : Conn) : Prop where
  resting : ∀ t, ∀ f ∈ (c.threads t).tail, f.Resting
  foreign : ∀ t, t ≠ loopThread → ∀ f ∈ c.threads t, f.Foreign
  holding : ∀ t, ∀ f ∈ c.threads t, f.Holding → c.sock.mutex = some t

theorem initial_layered (h : Initial c) : c.Layered := by
  cases h <;> constructor <;> simp [create, accepted]

theorem step_resting (h : ∀ t, ∀ f ∈ (c.threads t).tail, f.Resting) (hd : c.step a = some d) (u : Nat) :
    ∀ f ∈ (d.threads u).tail, f.Resting := by
  rcases step_spec hd with ⟨t, call, -, hu, rfl⟩ | ⟨t, rest, -, hst, rfl⟩ | ⟨t, k, f, rest, turn, -, hst, hturn, rfl⟩ |
    ⟨hd, r, -, hst, -, rfl⟩ | ⟨addrs, -, rfl⟩ | ⟨addrs, deferred, -, hst, -, rfl⟩
  · simp only [Function.update_apply]
    split
    · cases call with
      | connect => exact h t
      | write | «end» | destroy => exact resting_of_inUser (h t) hu
    · exact h u
  · simp only [Function.update_apply]
    split
    · exact fun f hf => h t f (by simp [hst, List.mem_of_mem_tail hf])
    · exact h u
  · simp only [apply, Function.update_apply]
    split
    · exact (Socket.executed_plain hturn).resting (by simpa [hst] using h t)
    · exact h u
  · simp only [Function.update_apply]
    split
    · simp
    · exact h u
  · exact h u
  · simp only [apply, Function.update_apply]
    split
    · cases addrs <;> simp [connectResolved, Socket.fail, Socket.emit, Frame.Resting]
    · exact h u

theorem step_foreign (h : ∀ t, t ≠ loopThread → ∀ f ∈ c.threads t, f.Foreign) (hd : c.step a = some d) (u : Nat)
    (hu : u ≠ loopThread) :
    ∀ f ∈ d.threads u, f.Foreign := by
  intro g hg
  rcases mem_step hd hg with hg | ⟨call, -, hg⟩ | ⟨f, turn, ⟨k, rest, -, hst, hturn, -⟩, hg⟩ | ⟨hloop, -⟩
  · exact h u hu g hg
  · cases call with
    | connect => cases hg
    | write | «end» | destroy =>
        cases List.mem_singleton.mp hg
        trivial
  · exact (Socket.executed_affects hturn).foreign (h u hu f (by simp [hst])) g hg
  · exact (hu hloop).elim

theorem push_holding (h : c.Layered) {u : Nat} {f g : Frame} {rest : List Frame} {k : Kernel}
    {turn : Turn Unit (List SocketAddress)} (hst : c.threads u = f :: rest)
    (hturn : Socket.Executed () u c.loop c.sock f k turn) (hg : g ∈ turn.push) (hhold : g.Holding) :
    turn.obj.mutex = some u := by
  rcases (Socket.executed_owns hturn).holding g hg hhold with hm | ⟨hf, hm⟩
  · exact hm
  · exact hm.trans (h.holding u f (by simp [hst]) hf)

theorem step_holding (h : c.Layered) (hd : c.step a = some d) (u : Nat) :
    ∀ f ∈ d.threads u, f.Holding → d.sock.mutex = some u := by
  intro g hg hhold
  rcases mem_step hd hg with hold | ⟨call, -, hg⟩ | ⟨f, turn, ⟨k, rest, -, hst, hturn, rfl⟩, hpush⟩ | ⟨-, hg⟩
  · have hmine := h.holding u g hold hhold
    rcases step_sock hd with hsock | ⟨t, f, turn, k, rest, -, hst, hturn, rfl⟩
    · rw [hsock, hmine]
    · rcases (Socket.executed_owns hturn).mutex with hsame | hfree | hf
      · exact hsame.trans hmine
      · cases hfree.symm.trans hmine
      · -- the turn is of the thread that holds the mutex, so its frame is replaced
        cases (h.holding t f (by simp [hst]) hf).symm.trans hmine
        rcases mem_apply hg with ⟨-, hg⟩ | ⟨-, hg⟩ | ⟨hu, -⟩
        · exact push_holding h hst hturn hg hhold
        · exact (hhold.not_resting (h.resting u g (by simp [hst, hg]))).elim
        · exact (hu rfl).elim
  · cases call <;> simp_all [Call.frames, Frame.Holding]
  · exact push_holding h hst hturn hpush hhold
  · rcases hg with ⟨r, rfl⟩ | rfl | rfl | ⟨-, addr, rfl⟩ <;> exact hhold.elim

theorem step_layered (h : c.Layered) (hd : c.step a = some d) : d.Layered :=
  ⟨step_resting h.resting hd, step_foreign h.foreign hd, step_holding h hd⟩

/-- No `connect` is under way: none is being resolved, waits to be started, or is on its
way to store a descriptor. -/
structure NoConnect (c : Conn) : Prop where
  resolving : c.resolving = 0
  deferred : c.loop.deferred = []
  starting : ∀ t, ∀ f ∈ c.threads t, ¬ f.Starting

theorem step_noConnect (h : c.NoConnect) (ha : ∀ t, a ≠ .call t .connect) (hd : c.step a = some d) : d.NoConnect := by
  have hstarting : ∀ u, ∀ g ∈ d.threads u, ¬ g.Starting := by
    intro u g hg
    rcases mem_step hd hg with hg | ⟨call, rfl, hg⟩ | ⟨f, turn, ⟨k, rest, -, hst, hturn, -⟩, hg⟩ |
      ⟨-, ⟨r, rfl⟩ | rfl | rfl | ⟨⟨-, hdef⟩, -⟩⟩
    · exact h.starting u g hg
    · cases call <;> simp_all [Call.frames, Frame.Starting]
    · exact fun hs => h.starting u f (by simp [hst]) ((Socket.executed_owns hturn).starting g hg hs)
    · exact id
    · exact id
    · exact id
    · exact (hdef h.deferred).elim
  rcases step_spec hd with ⟨t, call, rfl, -, rfl⟩ | ⟨t, rest, -, -, rfl⟩ | ⟨t, k, f, rest, turn, -, -, hturn, rfl⟩ |
    ⟨hd, r, -, -, -, rfl⟩ | ⟨addrs, rfl, rfl⟩ | ⟨addrs, deferred, -, -, hdef, rfl⟩
  · refine ⟨?_, h.deferred, hstarting⟩
    have hcall : call ≠ .connect := by
      rintro rfl
      exact ha t rfl
    rw [if_neg hcall]
    exact h.resolving
  · exact ⟨h.resolving, h.deferred, hstarting⟩
  · exact ⟨h.resolving, (Socket.executed_deferred hturn).trans h.deferred, hstarting⟩
  · exact ⟨h.resolving, h.deferred, hstarting⟩
  · simp [step, h.resolving] at hd
  · simp [h.deferred] at hdef

/-- With no `connect` under way a turn keeps the descriptor, or closes it. -/
theorem desc_cases (h : c.NoConnect) {t : Nat} {f : Frame} {turn : Turn Unit (List SocketAddress)}
    (ht : c.Takes a d t f turn) : d.sock.desc = c.sock.desc ∨ f = .closeDesc ∧ valid d.sock.desc = false := by
  have hstart := h.starting t f ht.mem
  obtain ⟨k, rest, -, -, hturn, rfl⟩ := ht
  rcases Socket.executed_desc hturn with hdesc | ⟨rfl, hobj⟩ | ⟨desc, addr, rfl, -⟩
  · exact .inl hdesc
  · exact .inr ⟨rfl, by simp only [apply, hobj]; rfl⟩
  · exact (hstart trivial).elim

theorem invalid_kept (h : c.NoConnect) (hd : c.step a = some d) (hinvalid : valid c.sock.desc = false) :
    valid d.sock.desc = false := by
  rcases step_sock hd with hsock | ⟨t, f, turn, htakes⟩
  · rw [hsock, hinvalid]
  · rcases desc_cases h htakes with hdesc | ⟨-, hbad⟩
    · rw [hdesc, hinvalid]
    · exact hbad

/-- With no `connect` under way a closed socket stays closed, if `open` is stored over
`connecting` only. -/
theorem closed_kept (h : c.NoConnect)
    (hopen : ∀ t k, a = .turn t k → (c.threads t).head? = some .setOpen → c.sock.state = .connecting)
    (hd : c.step a = some d) (hclosed : c.sock.state = .closed) : d.sock.state = .closed := by
  rcases step_sock hd with hsock | ⟨t, f, turn, k, rest, ha, hst, hturn, rfl⟩
  · rw [hsock, hclosed]
  · rcases (Socket.executed_affects hturn).state with hs | rfl | ⟨-, hs⟩ | ⟨desc, addr, rfl, -⟩
    · exact hs.trans hclosed
    · cases hclosed.symm.trans (hopen t k ha (by simp [hst]))
    · exact hs
    · exact (h.starting t (.storeConnect desc addr) (by simp [hst]) trivial).elim

end Conn
end CxNetworking.Tcp
