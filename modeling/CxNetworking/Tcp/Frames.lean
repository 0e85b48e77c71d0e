import CxNetworking.Tcp.Socket

/-! The frames of a thread. Only the one on top is in the middle of something; those below
wait for user code to return. What a turn leaves on the thread, and what it does to the
socket's state and backlog, is said once for all frames. -/
namespace CxNetworking.Tcp
open CxNetworking.Core

/-- The frames that may lie below others. -/
def Frame.Resting : Frame → Prop
  | .user | .closeBegin | .relock _ | .afterConnect | .afterDrain _ | .recv | .dropLocal _ => True
  | _ => False

theorem head_of_not_resting {st : List Frame} (h : ∀ f ∈ st.tail, f.Resting) {g : Frame} (hg : g ∈ st)
    (hrest : ¬ g.Resting) : st.head? = some g := by
  cases st with
  | nil => cases hg
  | cons f st =>
      rcases List.mem_cons.mp hg with rfl | hg
      · rfl
      · exact (hrest (h g hg)).elim

theorem mem_tail_append {α : Type*} {push rest : List α} {a : α} (h : a ∈ (push ++ rest).tail) :
    a ∈ push.tail ∨ a ∈ rest := by
  cases push with
  | nil => exact .inr (List.mem_of_mem_tail h)
  | cons p push => exact List.mem_append.mp h

/-- The frames a thread other than the loop's may have. -/
def Frame.Foreign : Frame → Prop
  | .user | .write _ | .pump .write | .relock .write | .raise | .end | .closeBegin | .closeUnwatch | .closeDesc => True
  | _ => False

/-- A frame that will raise the interest for a backlog, or close the socket. -/
def Frame.Repairs : Frame → Prop
  | .pump .write | .raise | .closeBegin | .lowerConnected | .afterConnect => True
  | _ => False

/-- A note that neither emits an event nor is a call of the user. -/
def Note.Inert : Note → Prop
  | .emitted _ | .called _ => False
  | _ => True

namespace Socket

variable {κ δ : Type} {self : κ} {t : Nat} {loop : EventLoop κ δ} {s : Socket} {f : Frame} {answer : Kernel}
  {turn : Turn κ δ}

/-- A turn that emits one event and then rests, or that emits nothing and leaves at most
one frame. -/
def Plain (turn : Turn κ δ) : Prop :=
  (∃ e rest, turn.notes = [.emitted e] ∧ turn.push = .user :: rest ∧ ∀ g ∈ rest, g.Resting) ∨
  ((∀ n ∈ turn.notes, n.Inert) ∧ turn.push.tail = [])

theorem Plain.push_resting (h : Plain turn) : ∀ g ∈ turn.push.tail, g.Resting := by
  rcases h with ⟨e, rest, -, hp, hrest⟩ | ⟨-, hp⟩
  · rwa [hp, List.tail_cons]
  · simp [hp]

theorem Plain.push_single {g : Frame} {tail : List Frame} (h : Plain turn) (hp : turn.push = g :: tail)
    (hg : g ≠ .user) : tail = [] := by
  rcases h with ⟨e, rest, -, hp', -⟩ | ⟨-, htail⟩
  · rw [hp'] at hp
    cases hp
    exact (hg rfl).elim
  · simpa [hp] using htail

theorem Plain.resting {rest : List Frame} (h : Plain turn) (hrest : ∀ g ∈ rest, g.Resting) :
    ∀ g ∈ (turn.push ++ rest).tail, g.Resting := fun g hg =>
  (mem_tail_append hg).elim (h.push_resting g) (hrest g)

theorem emit_plain {e : Emission} {rest : List Frame} (h : ∀ g ∈ rest, g.Resting) :
    Plain (emit loop s e rest) := .inl ⟨e, rest, rfl, rfl, h⟩

theorem afterPump_plain {notes : List Note} {k : Caller} (h : ∀ n ∈ notes, n.Inert) :
    Plain (afterPump t loop s notes k) := by
  rcases afterPump_cases t loop s k notes with
    ⟨-, -, heq⟩ | ⟨-, -, heq⟩ | ⟨r, -, -, heq⟩ | ⟨r, -, -, heq⟩ <;> rw [heq]
  · exact .inr ⟨h, rfl⟩
  · exact .inr ⟨h, rfl⟩
  · exact .inr ⟨h, by rcases readHalf_eq r with hr | hr <;> simp [hr]⟩
  · exact .inr ⟨h, rfl⟩

theorem pumpOutput_plain {notes : List Note} {k : Caller} (h : ∀ n ∈ notes, n.Inert) :
    Plain (pumpOutput t loop s notes k) := by
  unfold pumpOutput
  split
  · exact .inr ⟨h, rfl⟩
  · exact afterPump_plain h

theorem executed_plain (h : Executed self t loop s f answer turn) : Plain turn := by
  cases h with
  | @write chunk =>
      rcases write_cases t loop s chunk with ⟨-, heq⟩ | ⟨-, -, heq⟩ | ⟨-, -, heq⟩ <;> rw [heq]
      · exact emit_plain (by simp [Frame.Resting])
      · exact .inr ⟨by simp [Note.Inert], rfl⟩
      · exact pumpOutput_plain (by simp [Note.Inert])
  | pump _ h =>
      rcases pump_cases h with ⟨n, -, -, rfl⟩ | rfl | rfl | ⟨e, rfl⟩
      · exact pumpOutput_plain (by simp [Note.Inert])
      · exact afterPump_plain (by simp)
      · exact .inr ⟨by simp, rfl⟩
      · exact emit_plain (by simp [Frame.Resting])
  | relock => exact afterPump_plain (by simp)
  | pumpOutput => exact pumpOutput_plain (by simp)
  | recv _ h =>
      rcases recv_cases h with rfl | ⟨chunk, rfl⟩ | rfl | rfl | ⟨e, rfl⟩
      · exact emit_plain (by simp [Frame.Resting])
      · exact emit_plain (by simp [Frame.Resting])
      · exact .inr ⟨by simp, rfl⟩
      · exact .inr ⟨by simp, rfl⟩
      · exact emit_plain (by simp [Frame.Resting])
  | halfClose => exact .inr ⟨by simp only [halfClose]; split <;> simp [Note.Inert], rfl⟩
  | @onIo r =>
      refine .inr ⟨by simp, ?_⟩
      simp only [onIo]
      rcases readHalf_eq r with hr | hr <;> split <;> try split
      all_goals simp [hr]
  | @afterDrain r =>
      refine .inr ⟨by simp only [afterDrain]; split <;> simp [Note.Inert], ?_⟩
      rcases readHalf_eq r with hr | hr <;> simp [afterDrain, hr]
  | afterConnect =>
      unfold afterConnect
      split <;> exact .inr ⟨by simp, rfl⟩
  | closeBegin =>
      refine .inr ⟨by simp [closeBegin], ?_⟩
      simp only [closeBegin]
      split <;> rfl
  | refused | lowerConnected | lowerDrained | closeDesc | notOpened | blocking | unreachable =>
      exact emit_plain (by simp [Frame.Resting])
  | raise | connected | setOpen | closeUnwatch | opened | nonblocking | connecting | storeConnect
    | watchConnect | dropLocal => exact .inr ⟨by simp [setOpen, storeConnect], rfl⟩

/-- What a turn does to the state and the backlog. -/
structure Affects (s : Socket) (f : Frame) (turn : Turn κ δ) : Prop where
  foreign : f.Foreign → ∀ g ∈ turn.push, g.Foreign
  state : turn.obj.state = s.state ∨ f = .setOpen ∨ f = .closeBegin ∧ turn.obj.state = .closed ∨
    ∃ d addr, f = .storeConnect d addr ∧ turn.obj.state = .connecting
  watching : .watchConnect ∈ turn.push → turn.obj.state = .connecting
  lowering : ∀ r, .lowerDrained r ∈ turn.push → turn.obj.backlog = false
  /-- A backlog of an open socket was there before, or a frame that repairs is left. -/
  backlog : turn.obj.state = .open → turn.obj.backlog = true →
    s.state = .open ∧ s.backlog = true ∧ ¬ f.Repairs ∨ (∃ g ∈ turn.push, g.Repairs) ∨ f = .raise

theorem afterPump_affects {k : Caller}
    (hk : (f.Foreign → k = .write) ∧ (f.Repairs → k = .write)) :
    Affects s f (afterPump t loop s [] k) := by
  rcases afterPump_cases t loop s k [] with
    ⟨rfl, hb, heq⟩ | ⟨rfl, hb, heq⟩ | ⟨r, rfl, hb, heq⟩ | ⟨r, rfl, hb, heq⟩ <;> rw [heq]
  · constructor <;> simp_all [Frame.Foreign, Frame.Repairs]
  · constructor <;> simp_all [Frame.Foreign, Frame.Repairs]
  · rcases readHalf_eq r with hr | hr <;> constructor <;>
      simp_all [Frame.Foreign, Frame.Repairs]
  · constructor <;> simp_all [Frame.Foreign, Frame.Repairs]

theorem write_affects (chunk : Bytes) : Affects s (.write chunk) (write t loop s chunk) := by
  rcases write_cases t loop s chunk with ⟨hs, heq⟩ | ⟨-, -, heq⟩ | ⟨-, -, heq⟩
  · rw [heq]
    constructor <;> simp [fail, emit, Frame.Foreign, Frame.Repairs]
  · rw [heq]
    constructor <;> simp [Frame.Foreign, Frame.Repairs]
  · rcases pumpOutput_cases t loop { s with outbuf := s.outbuf ++ chunk } .write
      [.queued chunk] with ⟨-, hp⟩ | ⟨-, push, hp, hpush⟩
    · rw [heq, hp]
      constructor <;> simp [Frame.Foreign, Frame.Repairs]
    · rw [heq, hp]
      simp only [true_and, reduceCtorEq, false_and, exists_false, or_false] at hpush
      subst hpush
      constructor <;> simp [Socket.backlog]

theorem pump_affects {k : Caller} (h : pump t loop s k answer = some turn) : Affects s (.pump k) turn := by
  rcases pump_cases h with ⟨n, -, hn, rfl⟩ | rfl | rfl | ⟨e, rfl⟩
  · rcases pumpOutput_cases t loop { s with outOffset := s.outOffset + n } k
      [.took ((s.outbuf.drop s.outOffset).take n)] with ⟨hb, hp⟩ | ⟨-, push, hp, hpush⟩
    · have hb' : s.backlog = true := backlog_of_took hb
      rw [hp]
      cases k <;> constructor <;> simp +contextual [Frame.Foreign, Frame.Repairs, hb']
    · rw [hp]
      rcases hpush with ⟨rfl, rfl⟩ | ⟨r, rfl, rfl⟩ <;> constructor <;>
        simp [Frame.Foreign, Socket.backlog]
  · exact afterPump_affects (by cases k <;> simp [Frame.Foreign, Frame.Repairs])
  · cases k <;> constructor <;> simp +contextual [Frame.Foreign, Frame.Repairs]
  · cases k <;> constructor <;> simp +contextual [fail, emit, Frame.Foreign, Frame.Repairs]

theorem executed_affects (h : Executed self t loop s f answer turn) : Affects s f turn := by
  cases h with
  | write => exact write_affects _
  | pump _ h => exact pump_affects h
  | @relock k => exact afterPump_affects (by cases k <;> simp [Frame.Foreign, Frame.Repairs])
  | @pumpOutput r =>
      rcases pumpOutput_cases t loop s (.onIo r) [] with ⟨hb, hp⟩ | ⟨-, push, hp, hpush⟩
      · rw [hp]
        constructor <;> simp +contextual [hb, Frame.Foreign, Frame.Repairs]
      · rw [hp]
        rcases hpush with ⟨hk, -⟩ | ⟨r, -, rfl⟩
        · cases hk
        · constructor <;> simp [Frame.Foreign, Socket.backlog]
  | recv _ h =>
      rcases recv_cases h with rfl | ⟨chunk, rfl⟩ | rfl | rfl | ⟨e, rfl⟩ <;> constructor <;>
        simp +contextual [fail, emit, Frame.Foreign, Frame.Repairs]
  | halfClose => constructor <;> simp +contextual [halfClose, Frame.Foreign, Frame.Repairs]
  | @onIo r =>
      rcases readHalf_eq r with hr | hr <;> cases hs : s.state <;> cases hw : r.writable <;> constructor <;>
        simp +contextual [Socket.onIo, hs, hw, hr, Frame.Foreign, Frame.Repairs]
  | @afterDrain r =>
      rcases readHalf_eq r with hr | hr <;> constructor <;>
        simp +contextual [afterDrain, hr, Frame.Foreign, Frame.Repairs]
  | afterConnect =>
      unfold afterConnect
      split <;> constructor <;> simp_all [Frame.Foreign, Frame.Repairs]
  | closeBegin =>
      constructor <;> simp +contextual [closeBegin, Frame.Foreign, Frame.Repairs]
  | refused | lowerConnected | lowerDrained | closeDesc | notOpened | blocking | unreachable =>
      constructor <;> simp +contextual [fail, emit, Frame.Foreign, Frame.Repairs]
  | raise | connected | setOpen | closeUnwatch | opened | nonblocking | connecting | storeConnect
    | watchConnect | dropLocal =>
      constructor <;> simp +contextual [setOpen, storeConnect, Frame.Foreign, Frame.Repairs]

end Socket

/-- A thread in user code has nothing but resting frames. -/
theorem Conn.resting_of_inUser {c : Conn} {t : Nat} (h : ∀ f ∈ (c.threads t).tail, f.Resting)
    (hu : c.inUser t = true) : ∀ f ∈ c.threads t, f.Resting := by
  unfold inUser at hu
  split at hu
  · next hst => simp [hst]
  · next hst =>
      rw [hst] at h ⊢
      exact List.forall_mem_cons.mpr ⟨trivial, h⟩
  · cases hu

end CxNetworking.Tcp
