import CxNetworking.Lib.Execution
import CxNetworking.Tcp.Frames

/-! What a socket emits after 'close'. User code may tear the socket down in any listener,
and the frames below it go on when it returns; all of them are silent on a closed
socket except the read half of `on_io`. -/
namespace CxNetworking.Tcp
open CxNetworking.Core Execution

/-- The socket has emitted 'close', and the user has not called `write` or `connect`
since. -/
def afterClose : List Note → Bool
  | [] => false
  | .emitted .close :: _ => true
  | .called (.write _) :: _ | .called .connect :: _ => false
  | _ :: earlier => afterClose earlier

/-- Between 'close' and a later event the user called `write` or `connect`. -/
def FinalClose (log : List Note) : Prop :=
  ∀ later e between earlier, log = later ++ .emitted e :: (between ++ .emitted .close :: earlier) →
    ∃ c, .called c ∈ between ∧ (c = .connect ∨ ∃ chunk, c = .write chunk)

/-- The inductive form of `FinalClose`. -/
def NoneAfterClose : List Note → Prop
  | [] => True
  | .emitted _ :: earlier => afterClose earlier = false ∧ NoneAfterClose earlier
  | _ :: earlier => NoneAfterClose earlier

theorem exists_call_of_afterClose {between earlier : List Note}
    (h : afterClose (between ++ .emitted .close :: earlier) = false) :
    ∃ c, .called c ∈ between ∧ (c = .connect ∨ ∃ chunk, c = .write chunk) := by
  induction between with
  | nil => cases h
  | cons n between ih =>
      have hrest : afterClose (between ++ .emitted .close :: earlier) = false →
          ∃ c, .called c ∈ n :: between ∧ (c = .connect ∨ ∃ chunk, c = .write chunk) := by
        intro h
        obtain ⟨c, hc, hcall⟩ := ih h
        exact ⟨c, List.mem_cons_of_mem _ hc, hcall⟩
      cases n with
      | called c =>
          cases c with
          | connect => exact ⟨.connect, List.mem_cons_self, .inl rfl⟩
          | write chunk => exact ⟨.write chunk, List.mem_cons_self, .inr ⟨chunk, rfl⟩⟩
          | «end» | destroy => exact hrest h
      | emitted e =>
          cases e with
          | close => cases h
          | connect | data | drain | «end» | error => exact hrest h
      | queued | took | shutdown => exact hrest h

theorem NoneAfterClose.finalClose {log : List Note} (h : NoneAfterClose log) : FinalClose log := by
  rintro later e between earlier rfl
  induction later with
  | nil => exact exists_call_of_afterClose h.1
  | cons n later ih =>
      cases n with
      | emitted => exact ih h.2
      | called | queued | took | shutdown => exact ih h

/-- The frames that a closed socket may have on top. -/
def Frame.Silent (f : Frame) : Prop :=
  f.Resting ∨ f = .raise ∨ f = .end ∨ ∃ r, f = .onIo r

theorem afterClose_inert {notes log : List Note} (h : ∀ n ∈ notes, n.Inert) :
    afterClose (notes ++ log) = afterClose log := by
  induction notes with
  | nil => rfl
  | cons n notes ih =>
      have ih := ih fun m hm => h m (List.mem_cons_of_mem _ hm)
      cases n with
      | emitted | called => exact (h _ List.mem_cons_self).elim
      | queued | took | shutdown => exact ih

theorem noneAfterClose_inert {notes log : List Note} (h : ∀ n ∈ notes, n.Inert) (hlog : NoneAfterClose log) :
    NoneAfterClose (notes ++ log) := by
  induction notes with
  | nil => exact hlog
  | cons n notes ih =>
      have ih := ih fun m hm => h m (List.mem_cons_of_mem _ hm)
      cases n with
      | emitted | called => exact (h _ List.mem_cons_self).elim
      | queued | took | shutdown => exact ih

/-- The invariant of a socket used by one thread, whose frames are `st`. -/
structure Teardown (s : Socket) (st : List Frame) (log : List Note) : Prop where
  resting : ∀ f ∈ st.tail, f.Resting
  bottom : ∀ f rest, st = f :: rest → (∃ r, f = .onIo r ∨ f = .pumpOutput r) → rest = []
  /-- A failed `pump_output` does not find its buffer drained when it comes back. -/
  relock : ∀ k, .relock k ∈ st → s.backlog = true
  pump : ∀ k rest, st = .pump k :: rest → s.backlog = true ∧ ∀ k', .relock k' ∉ rest
  closing : ∀ f rest, st = f :: rest → f = .closeUnwatch ∨ f = .closeDesc → s.state = .closed
  closed : afterClose log = true →
    s.state = .closed ∧ valid s.desc = false ∧ ∀ f rest, st = f :: rest → f.Silent
  final : NoneAfterClose log

namespace Socket

variable {κ δ : Type} {self : κ} {t : Nat} {loop : EventLoop κ δ} {s : Socket} {f : Frame} {answer : Kernel}
  {turn : Turn κ δ}

/-- On a closed socket the silent frames, the read half apart, emit nothing, leave only
silent frames, and touch neither state nor descriptor. -/
theorem executed_silent (h : Executed self t loop s f answer turn) (hsilent : f.Silent) (hrecv : f ≠ .recv)
    (hclosed : s.state = .closed) (hback : ∀ k, f = .relock k → s.backlog = true) :
    (∀ n ∈ turn.notes, n.Inert) ∧ turn.obj.state = .closed ∧ turn.obj.desc = s.desc ∧
      ∀ g ∈ turn.push, g.Silent := by
  have hread : ∀ r, ∀ g ∈ readHalf r, g.Silent := by
    intro r g hg
    rcases readHalf_eq r with hr | hr <;> rw [hr] at hg
    · cases List.mem_singleton.mp hg
      exact .inl trivial
    · cases hg
  cases h with
  | @relock k =>
      rcases afterPump_cases t loop s k [] with
        ⟨-, -, heq⟩ | ⟨-, -, heq⟩ | ⟨r, -, -, heq⟩ | ⟨r, -, hb, -⟩
      · rw [heq]
        exact ⟨by simp, hclosed, rfl, by simp [Frame.Silent]⟩
      · rw [heq]
        exact ⟨by simp, hclosed, rfl, by simp⟩
      · rw [heq]
        exact ⟨by simp, hclosed, rfl, hread r⟩
      · simp [hback k rfl] at hb
  | halfClose =>
      refine ⟨?_, hclosed, rfl, by simp [halfClose]⟩
      simp only [halfClose]
      split <;> simp [Note.Inert]
  | onIo => exact ⟨by simp, hclosed, rfl, by simp [onIo, hclosed]⟩
  | @afterDrain r =>
      refine ⟨?_, hclosed, rfl, hread r⟩
      simp only [afterDrain]
      split <;> simp [Note.Inert]
  | afterConnect =>
      unfold afterConnect
      split
      · exact ⟨by simp, hclosed, rfl, by simp [Frame.Silent]⟩
      · exact ⟨by simp, hclosed, rfl, by simp⟩
  | closeBegin => exact ⟨by simp [closeBegin], rfl, rfl, by simp [closeBegin, hclosed]⟩
  | raise | dropLocal => exact ⟨by simp, hclosed, rfl, by simp⟩
  | recv => exact (hrecv rfl).elim
  | write | pump | pumpOutput | refused | lowerConnected | lowerDrained | closeDesc | notOpened | blocking | unreachable
    | connected | setOpen | closeUnwatch | opened | nonblocking | connecting | storeConnect | watchConnect =>
      simp [Frame.Silent, Frame.Resting] at hsilent

/-- Where the frames that the invariant speaks of come from. -/
structure Leaves (s : Socket) (f : Frame) (turn : Turn κ δ) : Prop where
  onIo : ∀ r, .onIo r ∉ turn.push
  pumpOutput : ∀ r, .pumpOutput r ∈ turn.push → ∃ r', f = .onIo r'
  relock : ∀ k, .relock k ∈ turn.push → f = .pump k ∧ turn.obj.backlog = s.backlog
  pump : ∀ k, .pump k ∈ turn.push → (turn.obj.backlog = true ∨ turn.obj = s ∧ f = .pump k) ∧
    (f = .pump k ∨ (∃ r, f = .pumpOutput r) ∨ s.backlog = false)
  closeUnwatch : .closeUnwatch ∈ turn.push → turn.obj.state = .closed
  closeDesc : .closeDesc ∈ turn.push → f = .closeUnwatch ∧ turn.obj = s
  backlog : s.backlog = true → (∃ k, f = .pump k) ∨ (∃ r, f = .pumpOutput r) ∨ turn.obj.backlog = true
  close : .emitted .close ∈ turn.notes → f = .closeDesc ∧ turn.obj = { s with desc := invalidHandle }

theorem afterPump_leaves {k : Caller} : Leaves s f (afterPump t loop s [] k) := by
  rcases afterPump_cases t loop s k [] with
    ⟨-, -, heq⟩ | ⟨-, -, heq⟩ | ⟨r, -, -, heq⟩ | ⟨r, -, -, heq⟩ <;> rw [heq]
  · constructor <;> simp +contextual
  · constructor <;> simp +contextual
  · rcases readHalf_eq r with hr | hr <;> constructor <;> simp +contextual [hr]
  · constructor <;> simp +contextual

theorem write_leaves (chunk : Bytes) : Leaves s (.write chunk) (write t loop s chunk) := by
  rcases write_cases t loop s chunk with ⟨-, heq⟩ | ⟨-, hb, heq⟩ | ⟨-, hb, heq⟩
  · rw [heq]
    constructor <;> simp [fail, emit]
  · rw [heq]
    constructor <;> simp
    simp only [Socket.backlog, decide_eq_true_eq, List.length_append] at hb ⊢
    omega
  · rcases pumpOutput_cases t loop { s with outbuf := s.outbuf ++ chunk } .write
      [.queued chunk] with ⟨hb', hp⟩ | ⟨-, push, hp, hpush⟩
    · rw [heq, hp]
      constructor <;> simp [hb]
      exact hb'
    · rw [heq, hp]
      constructor <;> simp_all

theorem pump_leaves {k : Caller} (h : pump t loop s k answer = some turn) : Leaves s (.pump k) turn := by
  rcases pump_cases h with ⟨n, -, -, rfl⟩ | rfl | rfl | ⟨e, rfl⟩
  · rcases pumpOutput_cases t loop { s with outOffset := s.outOffset + n } k
      [.took ((s.outbuf.drop s.outOffset).take n)] with ⟨hb, hp⟩ | ⟨-, push, hp, hpush⟩
    · rw [hp]
      constructor <;> simp
      exact .inl hb
    · rw [hp]
      rcases hpush with ⟨-, rfl⟩ | ⟨r, -, rfl⟩ <;> constructor <;> simp
  · exact afterPump_leaves
  · constructor <;> simp
  · constructor <;> simp [fail, emit]

theorem executed_leaves (h : Executed self t loop s f answer turn) : Leaves s f turn := by
  cases h with
  | write => exact write_leaves _
  | pump _ h => exact pump_leaves h
  | relock => exact afterPump_leaves
  | @pumpOutput r =>
      rcases pumpOutput_cases t loop s (.onIo r) [] with ⟨hb, hp⟩ | ⟨-, push, hp, hpush⟩
      · rw [hp]
        constructor <;> simp [hb]
      · rw [hp]
        rcases hpush with ⟨-, rfl⟩ | ⟨r, -, rfl⟩ <;> constructor <;> simp
  | recv _ h =>
      rcases recv_cases h with rfl | ⟨chunk, rfl⟩ | rfl | rfl | ⟨e, rfl⟩ <;> constructor <;> simp [fail, emit]
  | halfClose => constructor <;> simp [halfClose]
  | @onIo r =>
      rcases readHalf_eq r with hr | hr <;> cases hs : s.state <;> cases hw : r.writable <;> constructor <;>
        simp [Socket.onIo, hs, hw, hr]
  | @afterDrain r =>
      rcases readHalf_eq r with hr | hr <;> constructor <;> simp [afterDrain, hr]
  | afterConnect =>
      unfold afterConnect
      split <;> constructor <;> simp
  | closeBegin =>
      constructor <;> simp [closeBegin]
  | refused | lowerConnected | lowerDrained | closeDesc | notOpened | blocking | unreachable =>
      constructor <;> simp [fail, emit]
  | raise | connected | setOpen | closeUnwatch | opened | nonblocking | connecting | storeConnect
    | watchConnect | dropLocal =>
      constructor <;> simp [setOpen, storeConnect]

end Socket

theorem top_cases {push rest st : List Frame} {g : Frame} (h : push ++ rest = g :: st) :
    (∃ tail, push = g :: tail ∧ st = tail ++ rest) ∨ push = [] ∧ rest = g :: st := by
  cases push with
  | nil => exact .inr ⟨rfl, h⟩
  | cons p push =>
      cases h
      exact .inl ⟨push, rfl, rfl⟩

namespace Teardown

variable {κ δ : Type} {self : κ} {t : Nat} {loop : EventLoop κ δ} {s : Socket} {f : Frame} {rest : List Frame}
  {answer : Kernel} {turn : Turn κ δ} {log : List Note}

section Executed

variable (h : Teardown s (f :: rest) log) (hturn : Socket.Executed self t loop s f answer turn)
include h hturn

theorem executed_bottom {g : Frame} {st : List Frame} (hst : turn.push ++ rest = g :: st)
    (hg : ∃ r, g = .onIo r ∨ g = .pumpOutput r) : st = [] := by
  have hleaves := Socket.executed_leaves hturn
  obtain ⟨r, hg⟩ := hg
  rcases top_cases hst with ⟨tail, hp, rfl⟩ | ⟨-, hst⟩
  · rcases hg with rfl | rfl
    · exact (hleaves.onIo r (by simp [hp])).elim
    · obtain ⟨r', rfl⟩ := hleaves.pumpOutput r (by simp [hp])
      rw [(Socket.executed_plain hturn).push_single hp (by simp), h.bottom _ rest rfl ⟨r', .inl rfl⟩, List.append_nil]
  · have hrest := h.resting g (by simp [hst])
    rcases hg with rfl | rfl <;> exact hrest.elim

theorem executed_relock {k : Caller} (hk : .relock k ∈ turn.push ++ rest) : turn.obj.backlog = true := by
  have hleaves := Socket.executed_leaves hturn
  rcases List.mem_append.mp hk with hk | hk
  · obtain ⟨rfl, hsame⟩ := hleaves.relock k hk
    exact hsame.trans (h.pump k rest rfl).1
  · rcases hleaves.backlog (h.relock k (List.mem_cons_of_mem _ hk)) with ⟨k', rfl⟩ | ⟨r, rfl⟩ | hb
    · exact ((h.pump k' rest rfl).2 k hk).elim
    · rw [h.bottom _ rest rfl ⟨r, .inr rfl⟩] at hk
      cases hk
    · exact hb

theorem executed_pump {k : Caller} {st : List Frame} (hst : turn.push ++ rest = .pump k :: st) :
    turn.obj.backlog = true ∧ ∀ k', .relock k' ∉ st := by
  rcases top_cases hst with ⟨tail, hp, rfl⟩ | ⟨-, hst⟩
  · obtain ⟨hback, hfrom⟩ := (Socket.executed_leaves hturn).pump k (by simp [hp])
    rw [(Socket.executed_plain hturn).push_single hp (by simp), List.nil_append]
    refine ⟨?_, fun k' hk' => ?_⟩
    · rcases hback with hback | ⟨hsame, rfl⟩
      · exact hback
      · exact hsame ▸ (h.pump k rest rfl).1
    · rcases hfrom with rfl | ⟨r, rfl⟩ | hempty
      · exact (h.pump k rest rfl).2 k' hk'
      · rw [h.bottom _ rest rfl ⟨r, .inr rfl⟩] at hk'
        cases hk'
      · simp [h.relock k' (List.mem_cons_of_mem _ hk')] at hempty
  · exact (h.resting (.pump k) (by simp [hst])).elim

theorem executed_closing {g : Frame} {st : List Frame} (hst : turn.push ++ rest = g :: st)
    (hg : g = .closeUnwatch ∨ g = .closeDesc) : turn.obj.state = .closed := by
  have hleaves := Socket.executed_leaves hturn
  rcases top_cases hst with ⟨tail, hp, rfl⟩ | ⟨-, hst⟩
  · rcases hg with rfl | rfl
    · exact hleaves.closeUnwatch (by simp [hp])
    · obtain ⟨rfl, hsame⟩ := hleaves.closeDesc (by simp [hp])
      exact hsame ▸ h.closing _ rest rfl (.inl rfl)
  · have hrest := h.resting g (by simp [hst])
    rcases hg with rfl | rfl <;> exact hrest.elim

theorem executed_after (hok : f ≠ .recv) (hc : afterClose log = true) :
    (∀ n ∈ turn.notes, n.Inert) ∧ turn.obj.state = .closed ∧ valid turn.obj.desc = false ∧
      ∀ g st, turn.push ++ rest = g :: st → g.Silent := by
  obtain ⟨hstate, hdesc, htop⟩ := h.closed hc
  obtain ⟨hinert, hstate', hdesc', hpushed⟩ := Socket.executed_silent hturn (htop f rest rfl) hok hstate
    fun k hk => h.relock k (hk ▸ List.mem_cons_self)
  refine ⟨hinert, hstate', hdesc' ▸ hdesc, fun g st hst => ?_⟩
  rcases top_cases hst with ⟨tail, hp, -⟩ | ⟨-, hst⟩
  · exact hpushed g (by simp [hp])
  · exact .inl (h.resting g (by simp [hst]))

theorem executed_closed (hok : afterClose log = true → f ≠ .recv) (hc : afterClose (turn.notes ++ log) = true) :
    turn.obj.state = .closed ∧ valid turn.obj.desc = false ∧
      ∀ g st, turn.push ++ rest = g :: st → g.Silent := by
  have hold := fun hc => (executed_after h hturn (hok hc) hc).2
  rcases Socket.executed_plain hturn with ⟨e, tail, hn, hp, -⟩ | ⟨hinert, -⟩
  · by_cases he : e = .close
    · subst he
      obtain ⟨rfl, hobj⟩ := (Socket.executed_leaves hturn).close (by simp [hn])
      rw [hobj]
      refine ⟨h.closing _ rest rfl (.inr rfl), rfl, fun g st hst => ?_⟩
      rw [hp] at hst
      cases hst
      exact .inl trivial
    · refine hold ?_
      rw [hn] at hc
      cases e <;> first | exact hc | exact (he rfl).elim
  · exact hold (afterClose_inert hinert ▸ hc)

theorem executed_final (hok : afterClose log = true → f ≠ .recv) : NoneAfterClose (turn.notes ++ log) := by
  rcases Socket.executed_plain hturn with ⟨e, tail, hn, -, -⟩ | ⟨hinert, -⟩
  · rw [hn]
    refine ⟨?_, h.final⟩
    by_contra hc
    have hc : afterClose log = true := by simpa using hc
    exact (executed_after h hturn (hok hc) hc).1 (.emitted e) (by simp [hn])
  · exact noneAfterClose_inert hinert h.final

/-- The turn of a frame keeps the invariant, unless it goes on reading a closed socket. -/
theorem executed (hok : afterClose log = true → f ≠ .recv) :
    Teardown turn.obj (turn.push ++ rest) (turn.notes ++ log) where
  resting := (Socket.executed_plain hturn).resting h.resting
  bottom _ _ hst hg := executed_bottom h hturn hst hg
  relock _ hk := executed_relock h hturn hk
  pump _ _ hst := executed_pump h hturn hst
  closing _ _ hst hg := executed_closing h hturn hst hg
  closed := executed_closed h hturn hok
  final := executed_final h hturn hok

end Executed

theorem enter {st : List Frame} (h : Teardown s st log) (hst : ∀ g ∈ st, g.Resting) {log' : List Note}
    (hclosed : afterClose log' = true → afterClose log = true ∧ f.Silent) (hfinal : NoneAfterClose log')
    (hbottom : (∃ r, f = .onIo r ∨ f = .pumpOutput r) → st = []) (hpump : ∀ k, f ≠ .pump k ∧ f ≠ .relock k)
    (hclosing : f ≠ .closeUnwatch ∧ f ≠ .closeDesc) : Teardown s (f :: st) log' where
  resting := hst
  bottom := by
    rintro g rest ⟨⟩ hg
    exact hbottom hg
  relock := by
    intro k hk
    rcases List.mem_cons.mp hk with hk | hk
    · exact ((hpump k).2 hk.symm).elim
    · exact h.relock k hk
  pump := by
    rintro k rest ⟨⟩
    exact ((hpump k).1 rfl).elim
  closing := by
    rintro g rest ⟨⟩ hg
    exact (hg.elim hclosing.1 hclosing.2).elim
  closed := by
    intro hc
    obtain ⟨hc, hsilent⟩ := hclosed hc
    refine ⟨(h.closed hc).1, (h.closed hc).2.1, ?_⟩
    rintro g rest ⟨⟩
    exact hsilent
  final := hfinal

theorem leave (h : Teardown s (f :: rest) log) : Teardown s rest log := by
  have htop : ∀ g st, rest = g :: st → g.Resting := fun g st hst => h.resting g (by simp [hst])
  refine ⟨fun g hg => h.resting g (List.mem_of_mem_tail hg), ?_, fun k hk => h.relock k (List.mem_cons_of_mem _ hk),
    ?_, ?_, fun hc => ⟨(h.closed hc).1, (h.closed hc).2.1, fun g st hst => .inl (htop g st hst)⟩, h.final⟩
  · rintro g st hst ⟨r, rfl | rfl⟩ <;> exact (htop _ st hst).elim
  · intro k st hst
    exact (htop _ st hst).elim
  · rintro g st hst (rfl | rfl) <;> exact (htop _ st hst).elim

end Teardown

namespace Conn

/-- The steps of one thread that do not go on with a socket it has closed: no `recv` and
no deferred `connect` between 'close' and the next `write` or `connect` of the user. -/
def KeepsQuiet (c : Conn) : ConnLabel → Prop
  | .call t _ | .ret t => t = loopThread
  | .turn t _ => t = loopThread ∧ (afterClose c.log = true → (c.threads t).head? ≠ some .recv)
  | .io _ _ | .resolved _ => True
  | .deferred => afterClose c.log = false

instance (c : Conn) (a : ConnLabel) : Decidable (c.KeepsQuiet a) :=
  match a with
  | .call _ _ | .ret _ => inferInstanceAs (Decidable (_ = _))
  | .turn _ _ => inferInstanceAs (Decidable (_ ∧ (_ → _)))
  | .io _ _ | .resolved _ => isTrue trivial
  | .deferred => inferInstanceAs (Decidable (_ = _))

theorem call_teardown {c : Conn} (h : Teardown c.sock (c.threads loopThread) c.log)
    (hu : c.inUser loopThread = true) (call : Call) :
    Teardown c.sock (call.frames ++ c.threads loopThread) (.called call :: c.log) := by
  have hst := resting_of_inUser h.resting hu
  cases call with
  | connect => exact ⟨h.resting, h.bottom, h.relock, h.pump, h.closing, fun hc => (nomatch hc), h.final⟩
  | write chunk => exact h.enter hst (fun hc => nomatch hc) h.final (by simp) (by simp) (by simp)
  | «end» => exact h.enter hst (fun hc => ⟨hc, by simp [Frame.Silent]⟩) h.final (by simp) (by simp) (by simp)
  | destroy => exact h.enter hst (fun hc => ⟨hc, .inl trivial⟩) h.final (by simp) (by simp) (by simp)

theorem connectResolved_teardown {c : Conn} (h : Teardown c.sock [] c.log) (hok : afterClose c.log = false)
    (loop : EventLoop Unit (List SocketAddress)) (addrs : List SocketAddress) :
    Teardown (connectResolved loop c.sock addrs).obj (connectResolved loop c.sock addrs).push
      ((connectResolved loop c.sock addrs).notes ++ c.log) := by
  have hquiet : afterClose c.log ≠ true := by simp [hok]
  cases addrs with
  | nil =>
      have hclose : Teardown c.sock [.closeBegin] c.log :=
        h.enter (by simp) (fun hc => (hquiet hc).elim) h.final (by simp) (by simp) (by simp)
      exact hclose.enter (by simp [Frame.Resting]) (fun hc => (hquiet hc).elim) ⟨hok, h.final⟩ (by simp) (by simp)
        (by simp)
  | cons addr rest => exact h.enter (by simp) (fun hc => (hquiet hc).elim) h.final (by simp) (by simp) (by simp)

theorem step_teardown {c d : Conn} {a : ConnLabel} (h : Teardown c.sock (c.threads loopThread) c.log)
    (hok : c.KeepsQuiet a) (hd : c.step a = some d) : Teardown d.sock (d.threads loopThread) d.log := by
  rcases step_spec hd with ⟨t, call, rfl, hu, rfl⟩ | ⟨t, rest, rfl, hst, rfl⟩ |
    ⟨t, k, f, rest, turn, rfl, hst, hturn, rfl⟩ | ⟨hd, r, rfl, hst, -, rfl⟩ | ⟨addrs, rfl, rfl⟩ |
    ⟨addrs, deferred, rfl, hst, -, rfl⟩
  · cases hok
    simp only [Function.update_self]
    exact call_teardown h hu call
  · cases hok
    simp only [Function.update_self]
    rw [hst] at h
    exact h.leave
  · obtain ⟨rfl, hrecv⟩ := hok
    simp only [apply, Function.update_self]
    rw [hst] at h
    exact h.executed hturn fun hc hf => hrecv hc (by simp [hst, hf])
  · simp only [Function.update_self]
    rw [hst] at h
    exact h.enter (by simp) (fun hc => ⟨hc, by simp [Frame.Silent]⟩) h.final (by simp) (by simp) (by simp)
  · exact h
  · simp only [apply, Function.update_self, List.append_nil]
    rw [hst] at h
    exact connectResolved_teardown h hok _ addrs

/-- In every run of a socket on one thread in which neither a `recv` nor a deferred
`connect` is made between 'close' and the user's next `write` or `connect`, no event
follows 'close' before such a call. -/
theorem close_is_final {c : Conn} (hc : Initial c) {as : List ConnLabel} (hok : Along step KeepsQuiet c as) :
    Throughout step (fun d => FinalClose d.log) c as := by
  have hstart : Teardown c.sock (c.threads loopThread) c.log := by
    cases hc <;> constructor <;> simp [create, accepted, afterClose, NoneAfterClose]
  refine (throughout_of_along (I := fun c => Teardown c.sock (c.threads loopThread) c.log)
    (fun _ _ _ => step_teardown) hstart hok).mono fun d hd => hd.final.finalClose

/-- A peer ends the stream, and the user writes afterwards. -/
def writeLate : List ConnLabel :=
  [.io 5 { readable := true }, .turn 0 .none, .turn 0 (.got []), .ret 0, .turn 0 .none, .turn 0 .none, .turn 0 .none,
    .ret 0, .call 0 (.write [1]), .turn 0 .none, .ret 0, .turn 0 .none]

theorem writeLate_final :
    (run step (accepted 3 5 { address := "" }) writeLate).isSome ∧
      Throughout step (fun d => FinalClose d.log) (accepted 3 5 { address := "" }) writeLate :=
  ⟨by decide, close_is_final (.accepted 3 5 _ rfl) (by decide)⟩

/-- A data listener destroys the socket, and `drain_input` reads on. -/
def readOn : List ConnLabel :=
  [.io 5 { readable := true }, .turn 0 .none, .turn 0 (.got [1]), .call 0 .destroy, .turn 0 .none, .turn 0 .none,
    .turn 0 .none, .ret 0, .ret 0, .turn 0 (.failed .badFileDescriptor)]

/-- 'error' follows 'close' without a call of the user between them. -/
theorem readOn_not_final :
    ∃ d, run step (accepted 3 5 { address := "" }) readOn = some d ∧ ¬ FinalClose d.log ∧
      d.log.take 2 = [.emitted (.error (.system "recv" .badFileDescriptor)), .emitted .close] := by
  have hlog : (run step (accepted 3 5 { address := "" }) readOn).map (·.log) =
      some [.emitted (.error (.system "recv" .badFileDescriptor)), .emitted .close, .called .destroy,
        .emitted (.data [1])] := by
    decide
  obtain ⟨d, hd, hlog⟩ := Option.map_eq_some_iff.mp hlog
  refine ⟨d, hd, fun hfinal => ?_, by rw [hlog]; rfl⟩
  obtain ⟨c, hc, -⟩ := hfinal [] _ [] _ hlog
  cases hc

end Conn
end CxNetworking.Tcp
