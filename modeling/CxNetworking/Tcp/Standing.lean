import CxNetworking.Tcp.Backpressure
import CxNetworking.Tcp.Close

/-! A socket that only the loop thread uses, frame by frame. The registered interest follows
the unsent bytes, up to the few frames in the middle of changing one of the two; what holds
at each frame is written down once, and every turn leads from one such description to the
next. -/
namespace CxNetworking.Tcp
open CxNetworking.Core

/-- A frame of `write` that may end the call. -/
def Frame.Decides : Frame → Bool
  | .write _ | .pump .write | .relock .write => true
  | _ => false

/-- What a turn decides that `write` returns: `false` once it keeps the lock to raise the
interest, `true` once it is through. -/
def Frame.result {κ δ : Type} (f : Frame) (turn : Turn κ δ) : Option Bool :=
  if f.Decides then
    if turn.push = [] then some true else if turn.push = [.raise] then some false else none
  else none

def Frame.Pumps : Frame → Bool
  | .pump _ | .relock _ | .pumpOutput _ => true
  | _ => false

/-- The frames below which the interest may be behind the buffer: the socket is about to be
closed, or `on_io` raises the interest when the `connect` listeners are through. -/
def Frame.Awaited : Frame → Prop
  | .closeBegin | .afterConnect | .relock .write => True
  | _ => False

/-- The frames that `pump_output` leaves to its caller when it has sent everything. -/
def Caller.flushed : Caller → List Frame
  | .write => []
  | .onIo r => [.lowerDrained r]

def Caller.blocked : Caller → List Frame
  | .write => [.raise]
  | .onIo r => Socket.readHalf r

namespace Socket

section Contract

variable (s : Socket) (e : Option Interest) (st : List Frame) (left : Bool)

/-- Between the turns that change the buffer or the interest. `left` says that a returned
`write` left the backlog. -/
structure Calm : Prop where
  backlog_of_left : left = true → s.backlog = true
  left_of_backlog : s.backlog = true → left = true ∨ .relock .write ∈ st
  connecting : s.state = .connecting → e.isSome = true
  flushed : s.state = .open → s.backlog = false → e = some .read
  pending : s.state = .open → s.backlog = true →
    e = some (.read ||| .write) ∨ e = some .read ∧ (.closeBegin ∈ st ∨ .afterConnect ∈ st)

/-- What holds when the thread is about to execute its top frame. -/
def Standing : Prop :=
  match st with
  | .pump .write :: rest =>
    s.state = .open ∧ s.backlog = true ∧ e = some .read ∧ left = false ∧ ∀ k, .relock k ∉ rest
  | .pump (.onIo _) :: _ | .pumpOutput _ :: _ =>
    s.state = .open ∧ s.backlog = true ∧ e = some (.read ||| .write) ∧ left = true
  | .lowerDrained _ :: _ => s.state = .open ∧ s.backlog = false ∧ e.isSome = true ∧ left = false
  | .lowerConnected :: _ => s.state = .open ∧ e.isSome = true ∧ left = s.backlog
  | .raise :: _ => s.backlog = true ∧ left = true ∧ (s.state = .open ∨ s.state = .connecting → e.isSome = true)
  | .pendingError :: _ | .setOpen :: _ => s.state = .connecting ∧ e.isSome = true ∧ left = s.backlog
  | .watchConnect :: _ => s.state = .connecting ∧ left = s.backlog
  | .closeUnwatch :: _ | .closeDesc :: _ => s.state = .closed ∧ Calm s e st left
  | .onIo r :: _ => Calm s e st left ∧ (s.state = .open → r.writable = true → s.backlog = true)
  | _ => Calm s e st left

/-- The invariant of the loop thread's frames: those of `on_io` and `connect` lie at the
bottom, and a `send` that failed has left its bytes in the buffer. -/
structure Contract : Prop where
  outer : ∀ f ∈ st.dropLast, f.Foreign
  resting : ∀ f ∈ st.tail, f.Resting
  failing : ∀ k, .relock k ∈ st → s.backlog = true
  standing : Standing s e st left

end Contract

variable {κ δ : Type} {self : κ} {t : Nat} {loop : EventLoop κ δ} {s s' : Socket} {f : Frame} {answer : Kernel}
  {turn : Turn κ δ} {e : Option Interest} {st st' rest : List Frame} {left : Bool}

def interestIn (s : Socket) (loop : EventLoop κ δ) : Option Interest := loop.watches[s.desc]?.map (·.events)

theorem interestIn_modify {events : Interest} (hdesc : s'.desc = s.desc) :
    s'.interestIn (loop.modify s.desc events) = (s.interestIn loop).map fun _ => events := by
  simp only [interestIn, hdesc, EventLoop.watches_modify, if_true, Option.map_map]
  rfl

theorem interestIn_modify_of_isSome {events : Interest} (hdesc : s'.desc = s.desc)
    (h : (s.interestIn loop).isSome = true) : s'.interestIn (loop.modify s.desc events) = some events := by
  obtain ⟨old, hold⟩ := Option.isSome_iff_exists.mp h
  rw [interestIn_modify hdesc, hold]
  rfl

theorem Calm.isSome (h : Calm s e st left) (hs : s.state = .open ∨ s.state = .connecting) : e.isSome = true := by
  rcases hs with hs | hs
  · cases hb : s.backlog with
    | false => simp [h.flushed hs hb]
    | true => rcases h.pending hs hb with he | ⟨he, -⟩ <;> simp [he]
  · exact h.connecting hs

theorem Calm.move (h : Calm s e st left) (hstate : s'.state = s.state) (hback : s'.backlog = s.backlog)
    (hst : ∀ g ∈ st, g.Awaited → g ∈ st') : Calm s' e st' left := by
  refine ⟨hback ▸ h.backlog_of_left, ?_, hstate ▸ h.connecting, hstate ▸ hback ▸ h.flushed, ?_⟩
  · intro hb
    exact (h.left_of_backlog (hback ▸ hb)).imp_right fun hr => hst _ hr trivial
  · intro ho hb
    refine (h.pending (hstate ▸ ho) (hback ▸ hb)).imp_right ?_
    rintro ⟨he, hc | hc⟩
    · exact ⟨he, .inl (hst _ hc trivial)⟩
    · exact ⟨he, .inr (hst _ hc trivial)⟩

theorem Calm.flush (hopen : s.state = .open) (hback : s.backlog = false) : Calm s (some .read) st false := by
  refine ⟨nofun, ?_, ?_, fun _ _ => rfl, ?_⟩
  · intro hb
    cases hback.symm.trans hb
  · intro hs
    cases hopen.symm.trans hs
  · intro _ hb
    cases hback.symm.trans hb

theorem Calm.buffered (hopen : s.state = .open) (hback : s.backlog = true) (hleft : left = true ∨ .relock .write ∈ st)
    (he : e = some (.read ||| .write) ∨ e = some .read ∧ (.closeBegin ∈ st ∨ .afterConnect ∈ st)) :
    Calm s e st left := by
  refine ⟨fun _ => hback, fun _ => hleft, ?_, ?_, fun _ _ => he⟩
  · intro hs
    cases hopen.symm.trans hs
  · intro _ hb
    cases hback.symm.trans hb

theorem Calm.start (hstate : s.state = .connecting) (he : e.isSome = true) (hleft : left = s.backlog) :
    Calm s e st left := by
  refine ⟨fun hl => hleft ▸ hl, fun hb => .inl (hleft.trans hb), fun _ => he, ?_, ?_⟩
  all_goals
    intro hs
    cases hstate.symm.trans hs

/-- With no `write` under way the backlog is the one that was left. -/
theorem Calm.left_eq (h : Calm s e st left) (hst : .relock .write ∉ st) : left = s.backlog := by
  rw [Bool.eq_iff_iff]
  exact ⟨h.backlog_of_left, fun hb => (h.left_of_backlog hb).resolve_right hst⟩

theorem standing_iff_calm (hst : ∀ f ∈ st, f.Resting) : Standing s e st left ↔ Calm s e st left := by
  cases st with
  | nil => exact Iff.rfl
  | cons f rest =>
      have hf := hst f List.mem_cons_self
      cases f with
      | user | closeBegin | relock | afterConnect | afterDrain | recv | dropLocal => exact Iff.rfl
      | write | pump | raise | «end» | onIo | pendingError | setOpen | lowerConnected | pumpOutput | lowerDrained
        | closeUnwatch | closeDesc | openSocket | setNonblocking | connectTo | storeConnect | watchConnect => exact hf.elim

/-- The frames below the top are at rest, so a finished call leaves a calm socket. -/
theorem Calm.standing (h : Calm s e st left) (hst : ∀ f ∈ st, f.Resting) : Standing s e st left :=
  (standing_iff_calm hst).mpr h

theorem Contract.backlog_of_left (h : Contract s e st left) (hleft : left = true) : s.backlog = true := by
  have hst := h.standing
  unfold Standing at hst
  split at hst
  · exact hst.2.1
  · exact hst.2.1
  · exact hst.2.1
  · cases hleft.symm.trans hst.2.2.2
  · exact hst.2.2.symm.trans hleft
  · exact hst.1
  · exact hst.2.2.symm.trans hleft
  · exact hst.2.2.symm.trans hleft
  · exact hst.2.symm.trans hleft
  · exact hst.2.backlog_of_left hleft
  · exact hst.2.backlog_of_left hleft
  · exact hst.1.backlog_of_left hleft
  · exact hst.backlog_of_left hleft

/-- A frame of `on_io` or `connect` has nothing below it. -/
theorem Contract.alone (h : Contract s e (f :: rest) left) (hf : ¬ f.Foreign) : rest = [] := by
  cases rest with
  | nil => rfl
  | cons g rest => exact (hf (h.outer f (by simp))).elim

theorem result_ne (hf : f.Decides = false) : f.result turn ≠ some false := by
  simp [Frame.result, hf]

/-- Whether a returned `write` has left the backlog, after a turn. -/
def leftAfter (left : Bool) (f : Frame) (turn : Turn κ δ) : Bool :=
  turn.obj.backlog && (left || f.result turn == some false)

/-- The description that a turn at `f` leads to. -/
def Reaches (rest : List Frame) (left : Bool) (f : Frame) (turn : Turn κ δ) : Prop :=
  Standing turn.obj (turn.obj.interestIn turn.loop) (turn.push ++ rest) (leftAfter left f turn)

theorem leftAfter_kept (h : left = true → turn.obj.backlog = true) (hr : f.result turn ≠ some false) :
    leftAfter left f turn = left := by
  cases left with
  | false => simp [leftAfter, hr]
  | true => simp [leftAfter, h rfl]

theorem leftAfter_eq (hf : f.Decides = false) (hback : turn.obj.backlog = s.backlog) (hleft : left = s.backlog) :
    leftAfter left f turn = turn.obj.backlog := by
  simp [leftAfter, Frame.result, hf, hback, hleft]

theorem leftAfter_true (h : turn.obj.backlog = true) : leftAfter true f turn = true := by
  simp [leftAfter, h]

theorem leftAfter_raise {s' : Socket} {notes : List Note} (hb : s'.backlog = true) (hf : f.Decides = true) :
    leftAfter left f { loop, obj := s', push := [.raise], notes } = true := by
  simp [leftAfter, hb, Frame.result, hf]

/-- A turn that leaves the socket, the registration and the awaited frames as they are
leads from calm to calm, if its own frame is not awaited. -/
theorem Calm.reaches (h : Calm s (s.interestIn loop) (f :: rest) left) (hstate : turn.obj.state = s.state)
    (hback : turn.obj.backlog = s.backlog) (hdesc : turn.obj.desc = s.desc) (hloop : turn.loop.watches = loop.watches)
    (hres : f.result turn ≠ some false) (hf : f.Awaited → f ∈ turn.push) :
    Calm turn.obj (turn.obj.interestIn turn.loop) (turn.push ++ rest) (leftAfter left f turn) := by
  have he : turn.obj.interestIn turn.loop = s.interestIn loop := by rw [interestIn, interestIn, hdesc, hloop]
  rw [leftAfter_kept (fun hl => hback.trans (h.backlog_of_left hl)) hres, he]
  refine h.move hstate hback ?_
  intro g hg hga
  rcases List.mem_cons.mp hg with rfl | hg
  · exact List.mem_append_left _ (hf hga)
  · exact List.mem_append_right _ hg

theorem Calm.closes (h : Calm s e (f :: rest) left) (hf : f.Decides = false) (hstate : turn.obj.state = .closed)
    (hback : turn.obj.backlog = s.backlog) {e' : Option Interest} :
    Calm turn.obj e' (turn.push ++ rest) (leftAfter left f turn) := by
  rw [leftAfter_kept (fun hl => hback.trans (h.backlog_of_left hl)) (result_ne hf)]
  refine ⟨hback ▸ h.backlog_of_left, ?_, ?_, ?_, ?_⟩
  · intro hb
    refine (h.left_of_backlog (hback ▸ hb)).imp_right ?_
    intro hr
    refine List.mem_append_right _ ((List.mem_cons.mp hr).resolve_left ?_)
    rintro rfl
    cases hf
  all_goals
    intro hs
    cases hstate.symm.trans hs

/-- `write` has sent everything and is through. -/
theorem flushed_reaches {notes : List Note} (hopen : s.state = .open) (he : s.interestIn loop = some .read)
    (hrest : ∀ g ∈ rest, g.Resting) :
    Reaches rest left f { loop, obj := { s with outbuf := [], outOffset := 0, mutex := none }, notes } := by
  have he' : { s with outbuf := [], outOffset := 0, mutex := none }.interestIn loop = some .read := he
  refine Calm.standing ?_ hrest
  rw [he']
  exact Calm.flush hopen rfl

theorem write_standing {chunk : Bytes} (h : Contract s (s.interestIn loop) (.write chunk :: rest) left) :
    Reaches rest left (.write chunk) (write t loop s chunk) := by
  have hcalm : Calm s (s.interestIn loop) (.write chunk :: rest) left := h.standing
  rcases write_cases t loop s chunk with ⟨-, heq⟩ | ⟨ho, hb, heq⟩ | ⟨ho, hb, heq⟩
  · rw [heq]
    exact hcalm.reaches rfl rfl rfl rfl (by simp [Frame.result, fail, emit]) False.elim
  · have hb' : { s with outbuf := s.outbuf ++ chunk, mutex := some t }.backlog = true := by
      simp only [backlog, decide_eq_true_eq, List.length_append] at hb ⊢
      omega
    rw [heq]
    exact ⟨hb', leftAfter_raise hb' rfl, fun hs => hcalm.isSome hs⟩
  · -- nothing was left, so no failed `send` is below
    have hleft : left = false := by
      cases left with
      | false => rfl
      | true => cases hb.symm.trans (hcalm.backlog_of_left rfl)
    have hnone : ∀ k, .relock k ∉ rest := by
      intro k hk
      cases hb.symm.trans (h.failing k (List.mem_cons_of_mem _ hk))
    rcases pumpOutput_cases t loop { s with outbuf := s.outbuf ++ chunk } .write [.queued chunk] with
      ⟨hb', hp⟩ | ⟨-, push, hp, ⟨-, rfl⟩ | ⟨r, hk, -⟩⟩
    · rw [heq, hp]
      exact ⟨ho, hb', hcalm.flushed ho hb, by simp [leftAfter, hleft, Frame.result, Frame.Decides], hnone⟩
    · rw [heq, hp]
      exact flushed_reaches ho (hcalm.flushed ho hb) h.resting
    · cases hk

theorem afterPump_blocked {k : Caller} (notes : List Note) (hb : s.backlog = true) :
    ∃ m, afterPump t loop s notes k = { loop, obj := { s with mutex := m }, push := k.blocked, notes } := by
  cases k with
  | write => exact ⟨some t, by simp [afterPump, hb, Caller.blocked]⟩
  | onIo r => exact ⟨none, by simp [afterPump, hb, Caller.blocked]⟩

/-- What one `send` of `pump_output` leads to. -/
inductive Pumped (loop : EventLoop κ δ) (s : Socket) (k : Caller) : Turn κ δ → Prop
  | more {n m notes} : { s with outOffset := n, mutex := m }.backlog = true →
      Pumped loop s k { loop, obj := { s with outOffset := n, mutex := m }, push := [.pump k], notes }
  | flushed {notes} : Pumped loop s k
      { loop, obj := { s with outbuf := [], outOffset := 0, mutex := none }, push := k.flushed, notes }
  | blocked {m} : Pumped loop s k { loop, obj := { s with mutex := m }, push := k.blocked }
  | failed {x} : Pumped loop s k (fail loop { s with mutex := none } x [.relock k])

theorem pump_pumped {k : Caller} (hb : s.backlog = true) (h : pump t loop s k answer = some turn) :
    Pumped loop s k turn := by
  rcases pump_cases h with ⟨n, -, -, rfl⟩ | rfl | rfl | ⟨x, rfl⟩
  · rcases pumpOutput_cases t loop { s with outOffset := s.outOffset + n } k
      [.took ((s.outbuf.drop s.outOffset).take n)] with ⟨hb', hp⟩ | ⟨-, push, hp, hpush⟩
    · rw [hp]
      exact .more hb'
    · have hk : push = k.flushed := by rcases hpush with ⟨rfl, rfl⟩ | ⟨r, rfl, rfl⟩ <;> rfl
      rw [hp, hk]
      exact .flushed
  · obtain ⟨m, heq⟩ := afterPump_blocked [] hb
    rw [heq]
    exact .blocked
  · exact .more hb
  · exact .failed

theorem left_of_pump {k : Caller} (h : Standing s e (.pump k :: rest) left) :
    s.state = .open ∧ s.backlog = true ∧ (e = some (.read ||| .write) ∧ left = true ∨ e = some .read ∧ k = .write) := by
  cases k with
  | write => exact ⟨h.1, h.2.1, .inr ⟨h.2.2.1, rfl⟩⟩
  | onIo r => exact ⟨h.1, h.2.1, .inl ⟨h.2.2.1, h.2.2.2⟩⟩

/-- A `send` that fails leaves its bytes, and the socket is about to be closed. -/
theorem send_failed_reaches {k : Caller} {x : Failure} (h : Standing s (s.interestIn loop) (.pump k :: rest) left) :
    Reaches rest left (.pump k) (fail loop { s with mutex := none } x [.relock k]) := by
  obtain ⟨ho, hb, he⟩ := left_of_pump h
  have hleft : leftAfter left (.pump k) (fail loop { s with mutex := none } x [.relock k]) = left :=
    leftAfter_kept (fun _ => hb) (by simp [Frame.result, fail, emit])
  show Calm _ _ _ _
  rw [hleft]
  refine Calm.buffered ho hb ?_ ?_
  · rcases he with ⟨-, hl⟩ | ⟨-, rfl⟩
    · exact .inl hl
    · exact .inr (by simp [fail, emit])
  · rcases he with ⟨he, -⟩ | ⟨he, -⟩
    · exact .inl he
    · exact .inr ⟨he, .inl (by simp [fail, emit])⟩

/-- `pump_output` called by `write`: the bytes are the call's own. -/
theorem pump_write_standing (h : Contract s (s.interestIn loop) (.pump .write :: rest) left)
    (hturn : pump t loop s .write answer = some turn) : Reaches rest left (.pump .write) turn := by
  obtain ⟨ho, hb, he, rfl, hnone⟩ := h.standing
  cases pump_pumped hb hturn with
  | more hb' => exact ⟨ho, hb', he, by simp [leftAfter, Frame.result, Frame.Decides], hnone⟩
  | flushed => exact flushed_reaches ho he h.resting
  | blocked => exact ⟨hb, leftAfter_raise hb rfl, fun _ => Option.isSome_iff_exists.mpr ⟨_, he⟩⟩
  | failed => exact send_failed_reaches h.standing

theorem readHalf_standing {r : Ready} (hrest : ∀ g ∈ rest, g.Resting) (h : Calm s e (readHalf r ++ rest) left) :
    Standing s e (readHalf r ++ rest) left := by
  refine h.standing ?_
  intro g hg
  rcases List.mem_append.mp hg with hg | hg
  · rcases readHalf_eq r with hr | hr
    · rw [hr] at hg
      cases List.mem_singleton.mp hg
      trivial
    · simp [hr] at hg
  · exact hrest g hg

/-- `pump_output` called by `on_io`: the bytes are those a returned `write` left. -/
theorem pump_onIo_standing {r : Ready} (h : Contract s (s.interestIn loop) (.pump (.onIo r) :: rest) left)
    (hturn : pump t loop s (.onIo r) answer = some turn) : Reaches rest left (.pump (.onIo r)) turn := by
  obtain ⟨ho, hb, he, rfl⟩ := h.standing
  cases pump_pumped hb hturn with
  | more hb' => exact ⟨ho, hb', he, leftAfter_true hb'⟩
  | flushed => exact ⟨ho, rfl, Option.isSome_iff_exists.mpr ⟨_, he⟩, rfl⟩
  | blocked => exact readHalf_standing h.resting (Calm.buffered ho hb (.inl (leftAfter_true hb)) (.inl he))
  | failed => exact send_failed_reaches h.standing

/-- A failed `send` has left its bytes: `write` raises the interest, `on_io` goes on. -/
theorem relock_standing {k : Caller} (h : Contract s (s.interestIn loop) (.relock k :: rest) left) :
    Reaches rest left (.relock k) (afterPump t loop s [] k) := by
  have hcalm : Calm s (s.interestIn loop) (.relock k :: rest) left := h.standing
  have hb : s.backlog = true := h.failing k List.mem_cons_self
  obtain ⟨m, heq⟩ := afterPump_blocked [] hb
  rw [heq]
  cases k with
  | write => exact ⟨hb, leftAfter_raise hb rfl, fun hs => hcalm.isSome hs⟩
  | onIo r =>
      refine readHalf_standing h.resting ?_
      exact hcalm.reaches rfl rfl rfl rfl (result_ne rfl) False.elim

theorem raise_standing (h : Contract s (s.interestIn loop) (.raise :: rest) left) :
    Reaches rest left .raise
      { loop := loop.modify s.desc (.read ||| .write), obj := { s with mutex := none } } := by
  obtain ⟨hb, rfl, hsome⟩ := h.standing
  refine Calm.standing ⟨fun _ => hb, fun _ => .inl (leftAfter_true hb), ?_, ?_, ?_⟩ h.resting
  · intro hs
    exact Option.isSome_iff_exists.mpr ⟨_, interestIn_modify_of_isSome rfl (hsome (.inr hs))⟩
  · intro _ hn
    cases hb.symm.trans hn
  · intro hs _
    exact .inl (interestIn_modify_of_isSome rfl (hsome (.inl hs)))

theorem onIo_standing {r : Ready} (h : Contract s (s.interestIn loop) (.onIo r :: rest) left) :
    Reaches rest left (.onIo r) { loop, obj := s, push := s.onIo r } := by
  obtain ⟨hcalm, hwritable⟩ := h.standing
  have hrest : rest = [] := h.alone id
  subst hrest
  have hleft := hcalm.left_eq (by simp)
  have hkept : ∀ push, leftAfter left (.onIo r) { loop, obj := s, push } = left := fun push =>
    leftAfter_kept hcalm.backlog_of_left (result_ne rfl)
  have hquiet : ∀ push, Calm s (s.interestIn loop) (push ++ []) left := by
    intro push
    refine hcalm.move rfl rfl ?_
    intro g hg hga
    cases List.mem_singleton.mp hg
    exact hga.elim
  unfold Reaches
  rw [hkept]
  cases hs : s.state with
  | connecting =>
      simp only [onIo, hs]
      exact ⟨hs, hcalm.connecting hs, hleft⟩
  | «open» =>
      cases hw : r.writable with
      | true =>
          -- writable only with the interest registered, which an emptied buffer has not
          have hb := hwritable hs hw
          simp only [onIo, hs, hw, if_true]
          exact ⟨hs, hb, (hcalm.pending hs hb).resolve_right (by simp), hleft.trans hb⟩
      | false =>
          simp only [onIo, hs, hw, Bool.false_eq_true, if_false]
          exact readHalf_standing (by simp) (hquiet _)
  | idle | closed =>
      simp only [onIo, hs]
      exact hquiet _

theorem afterConnect_standing (h : Contract s (s.interestIn loop) (.afterConnect :: rest) left) :
    Reaches rest left .afterConnect (afterConnect t loop s) := by
  have hcalm : Calm s (s.interestIn loop) (.afterConnect :: rest) left := h.standing
  have hrest : rest = [] := h.alone id
  subst hrest
  have hleft := hcalm.left_eq (by simp)
  unfold afterConnect
  split
  · next hb =>
      exact ⟨hb, by simp [leftAfter, hleft, hb], fun hs => hcalm.isSome hs⟩
  · next hb =>
      have hb : s.backlog = false := by simpa using hb
      refine ⟨?_, ?_, hcalm.connecting, hcalm.flushed, ?_⟩
      · simp [leftAfter, hb]
      · intro hn
        cases hb.symm.trans hn
      · intro _ hn
        cases hb.symm.trans hn

theorem closeBegin_standing (h : Contract s (s.interestIn loop) (.closeBegin :: rest) left) :
    Reaches rest left .closeBegin (closeBegin loop s) := by
  have hcalm : Calm s (s.interestIn loop) (.closeBegin :: rest) left := h.standing
  have hclosed : Calm (closeBegin loop s).obj ((closeBegin loop s).obj.interestIn loop)
      ((closeBegin loop s).push ++ rest) (leftAfter left .closeBegin (closeBegin loop s)) := hcalm.closes rfl rfl rfl
  unfold Reaches
  by_cases hlive : s.state ≠ .closed ∧ valid s.desc
  · have hpush : (closeBegin loop s).push = [.closeUnwatch] := if_pos hlive
    rw [hpush] at hclosed ⊢
    exact ⟨rfl, hclosed⟩
  · have hpush : (closeBegin loop s).push = [] := if_neg hlive
    rw [hpush] at hclosed ⊢
    exact hclosed.standing h.resting

/-- Every turn of the thread leads from one description to the next. -/
theorem standing_turn (h : Contract s (s.interestIn loop) (f :: rest) left)
    (hturn : Executed self t loop s f answer turn) : Reaches rest left f turn := by
  cases hturn with
  | write => exact write_standing h
  | @pump k _ _ _ hturn =>
      cases k with
      | write => exact pump_write_standing h hturn
      | onIo r => exact pump_onIo_standing h hturn
  | relock => exact relock_standing h
  | raise => exact raise_standing h
  | onIo => exact onIo_standing h
  | afterConnect => exact afterConnect_standing h
  | closeBegin => exact closeBegin_standing h
  | connected =>
      obtain ⟨hs, he, hleft⟩ := h.standing
      exact ⟨hs, he, leftAfter_eq rfl rfl hleft⟩
  | refused =>
      obtain ⟨hs, he, hleft⟩ := h.standing
      exact Calm.start hs he (leftAfter_eq rfl rfl hleft)
  | setOpen =>
      obtain ⟨hs, he, hleft⟩ := h.standing
      exact ⟨rfl, he, leftAfter_eq rfl rfl hleft⟩
  | lowerConnected =>
      obtain ⟨hs, he, hleft⟩ := h.standing
      have he' : s.interestIn (loop.modify s.desc .read) = some .read := interestIn_modify_of_isSome rfl he
      show Calm s (s.interestIn (loop.modify s.desc .read)) (.user :: .afterConnect :: rest) _
      rw [he']
      cases hb : s.backlog with
      | true => exact Calm.buffered hs hb (.inl (by simp [leftAfter, hleft, hb, emit])) (.inr ⟨rfl, by simp⟩)
      | false =>
          have hnone : leftAfter left .lowerConnected (emit (loop.modify s.desc .read) s .connect [.afterConnect]) =
              false := by simp [leftAfter, hb, emit]
          rw [hnone]
          exact Calm.flush hs hb
  | pumpOutput =>
      obtain ⟨hs, hb, he, rfl⟩ := h.standing
      rcases pumpOutput_cases t loop s _ [] with ⟨-, hp⟩ | ⟨hn, -⟩
      · rw [hp]
        exact ⟨hs, hb, he, leftAfter_true hb⟩
      · cases hb.symm.trans hn
  | @lowerDrained r =>
      obtain ⟨hs, hb, he, rfl⟩ := h.standing
      have he' : s.interestIn (loop.modify s.desc .read) = some .read := interestIn_modify_of_isSome rfl he
      have hnone : leftAfter false (.lowerDrained r) (emit (loop.modify s.desc .read) s .drain [.afterDrain r]) =
          false := by simp [leftAfter, hb, emit]
      show Calm s (s.interestIn (loop.modify s.desc .read)) (.user :: .afterDrain r :: rest) _
      rw [he', hnone]
      exact Calm.flush hs hb
  | afterDrain => exact readHalf_standing h.resting (Calm.reaches h.standing rfl rfl rfl rfl (result_ne rfl) False.elim)
  | halfClose => exact (Calm.reaches h.standing rfl rfl rfl rfl (result_ne rfl) False.elim).standing h.resting
  | dropLocal => exact (Calm.reaches h.standing rfl rfl rfl rfl (result_ne rfl) False.elim).standing h.resting
  | recv _ hr =>
      rcases recv_cases hr with rfl | ⟨chunk, rfl⟩ | rfl | rfl | ⟨x, rfl⟩
      · exact Calm.reaches h.standing rfl rfl rfl rfl (result_ne rfl) False.elim
      · exact Calm.reaches h.standing rfl rfl rfl rfl (result_ne rfl) False.elim
      · exact (Calm.reaches h.standing rfl rfl rfl rfl (result_ne rfl) False.elim).standing h.resting
      · exact Calm.reaches h.standing rfl rfl rfl rfl (result_ne rfl) False.elim
      · exact Calm.reaches h.standing rfl rfl rfl rfl (result_ne rfl) False.elim
  | closeUnwatch =>
      obtain ⟨hs, hcalm⟩ := h.standing
      exact ⟨hs, hcalm.closes rfl hs rfl⟩
  | closeDesc =>
      obtain ⟨hs, hcalm⟩ := h.standing
      exact hcalm.closes rfl hs rfl
  | storeConnect =>
      have hcalm : Calm _ _ _ _ := h.standing
      have hrest : rest = [] := h.alone id
      subst hrest
      refine ⟨rfl, ?_⟩
      rw [leftAfter_kept hcalm.backlog_of_left (result_ne rfl)]
      exact hcalm.left_eq (by simp)
  | watchConnect =>
      obtain ⟨hs, hleft⟩ := h.standing
      refine Calm.standing (Calm.start hs ?_ ?_) h.resting
      · simp [interestIn, EventLoop.watches_watch]
      · exact leftAfter_eq rfl rfl hleft
  | notOpened | opened | nonblocking | blocking | connecting | unreachable =>
      exact Calm.reaches h.standing rfl rfl rfl rfl (result_ne rfl) False.elim

/-- What a turn has to do with 'drain', and where its frames of `on_io` and `connect` lie. -/
structure Drains (f : Frame) (turn : Turn κ δ) : Prop where
  outer : ∀ g ∈ turn.push.dropLast, g.Foreign
  lowers : ∀ r, .lowerDrained r ∈ turn.push → f.Pumps = true
  drain : .emitted .drain ∈ turn.notes → ∃ r, f = .lowerDrained r

theorem afterPump_drains {notes : List Note} {k : Caller} (hf : f.Pumps = true) (hnotes : .emitted .drain ∉ notes) :
    Drains f (afterPump t loop s notes k) := by
  rcases afterPump_cases t loop s k notes with
    ⟨-, -, heq⟩ | ⟨-, -, heq⟩ | ⟨r, -, -, heq⟩ | ⟨r, -, -, heq⟩ <;> rw [heq]
  · constructor <;> simp [hnotes]
  · constructor <;> simp [hnotes]
  · rcases readHalf_eq r with hr | hr <;> constructor <;> simp [hr, hnotes]
  · constructor <;> simp [hf, hnotes]

theorem pumpOutput_drains {notes : List Note} {k : Caller} (hf : k = .write ∨ f.Pumps = true)
    (hnotes : .emitted .drain ∉ notes) : Drains f (pumpOutput t loop s notes k) := by
  rcases pumpOutput_cases t loop s k notes with ⟨-, heq⟩ | ⟨-, push, heq, ⟨-, rfl⟩ | ⟨r, rfl, rfl⟩⟩ <;> rw [heq]
  · constructor <;> simp [hnotes]
  · constructor <;> simp [hnotes]
  · have hf : f.Pumps = true := hf.resolve_left (by simp)
    constructor <;> simp [hf, hnotes]

theorem executed_drains (h : Executed self t loop s f answer turn) : Drains f turn := by
  cases h with
  | @write chunk =>
      rcases write_cases t loop s chunk with ⟨-, heq⟩ | ⟨-, -, heq⟩ | ⟨-, -, heq⟩ <;> rw [heq]
      · constructor <;> simp [fail, emit, Frame.Foreign]
      · constructor <;> simp
      · exact pumpOutput_drains (.inl rfl) (by simp)
  | pump _ h =>
      rcases pump_cases h with ⟨n, -, -, rfl⟩ | rfl | rfl | ⟨x, rfl⟩
      · exact pumpOutput_drains (.inr rfl) (by simp)
      · exact afterPump_drains rfl (by simp)
      · constructor <;> simp
      · constructor <;> simp [fail, emit, Frame.Foreign]
  | relock => exact afterPump_drains rfl (by simp)
  | pumpOutput => exact pumpOutput_drains (.inr rfl) (by simp)
  | recv _ h =>
      rcases recv_cases h with rfl | ⟨chunk, rfl⟩ | rfl | rfl | ⟨x, rfl⟩ <;> constructor <;>
        simp [fail, emit, Frame.Foreign]
  | @onIo r =>
      rcases readHalf_eq r with hr | hr <;> cases hs : s.state <;> cases hw : r.writable <;> constructor <;>
        simp [Socket.onIo, hs, hw, hr]
  | @afterDrain r =>
      rcases readHalf_eq r with hr | hr <;> constructor <;> simp [afterDrain, hr]
  | afterConnect =>
      unfold afterConnect
      split <;> constructor <;> simp
  | closeBegin =>
      unfold closeBegin
      split <;> constructor <;> simp
  | refused | lowerConnected | lowerDrained | closeDesc | notOpened | blocking | unreachable =>
      constructor <;> simp [fail, emit, Frame.Foreign]
  | raise | halfClose | connected | setOpen | closeUnwatch | opened | nonblocking | connecting | storeConnect
    | watchConnect | dropLocal => constructor <;> simp [setOpen, storeConnect, halfClose]

/-- A backlog that a returned `write` left is emptied by `on_io`, which then lowers the
interest. -/
theorem Contract.emptied (h : Contract s (s.interestIn loop) (f :: rest) left)
    (hturn : Executed self t loop s f answer turn) (hleft : left = true) (hback : turn.obj.backlog = false) :
    ∃ r, f = .pump (.onIo r) ∧ rest = [] ∧ turn.push = [.lowerDrained r] ∧ turn.obj.state = .open := by
  rcases (executed_leaves hturn).backlog (h.backlog_of_left hleft) with ⟨k, rfl⟩ | ⟨r, rfl⟩ | hb
  · cases k with
    | write => cases hleft.symm.trans h.standing.2.2.2.1
    | onIo r =>
        obtain ⟨ho, hb, -⟩ := h.standing
        cases hturn with
        | pump _ hturn =>
            cases pump_pumped hb hturn with
            | more hb' => cases hb'.symm.trans hback
            | flushed => exact ⟨r, rfl, h.alone id, rfl, ho⟩
            | blocked | failed => cases hb.symm.trans hback
  · obtain ⟨-, hb, -⟩ := h.standing
    cases hturn with
    | pumpOutput =>
        rcases pumpOutput_cases t loop s (.onIo r) [] with ⟨-, hp⟩ | ⟨hn, -⟩
        · rw [hp] at hback
          cases hb.symm.trans hback
        · cases hb.symm.trans hn
  · cases hb.symm.trans hback

/-- What is lowered for a drained buffer was left by a returned `write`. -/
theorem Contract.lowered (h : Contract s (s.interestIn loop) (f :: rest) left)
    (hturn : Executed self t loop s f answer turn) {r : Ready} (hr : .lowerDrained r ∈ turn.push) :
    left = true ∧ turn.obj.backlog = false := by
  refine ⟨?_, (executed_affects hturn).lowering r hr⟩
  have hf := (executed_drains hturn).lowers r hr
  cases f with
  | pump k =>
      cases k with
      | write => exact ((executed_affects hturn).foreign trivial _ hr).elim
      | onIo => exact h.standing.2.2.2
  | pumpOutput => exact h.standing.2.2.2
  | relock k =>
      -- a failed `send` has left its bytes, so nothing is drained
      have hb := h.failing k List.mem_cons_self
      rcases (executed_leaves hturn).backlog hb with ⟨_, hk⟩ | ⟨_, hk⟩ | hb'
      · cases hk
      · cases hk
      · cases hb'.symm.trans ((executed_affects hturn).lowering r hr)
  | user | write | raise | «end» | onIo | pendingError | setOpen | lowerConnected | afterConnect | lowerDrained
    | afterDrain | recv | closeBegin | closeUnwatch | closeDesc | openSocket | setNonblocking | connectTo | storeConnect
    | watchConnect | dropLocal => cases hf

theorem Contract.turn_outer (h : Contract s (s.interestIn loop) (f :: rest) left)
    (hturn : Executed self t loop s f answer turn) : ∀ g ∈ (turn.push ++ rest).dropLast, g.Foreign := by
  cases rest with
  | nil =>
      rw [List.append_nil]
      exact (executed_drains hturn).outer
  | cons p rest =>
      have hf : f.Foreign := h.outer f (by simp)
      intro g hg
      rw [List.dropLast_append_of_ne_nil (List.cons_ne_nil p rest)] at hg
      rcases List.mem_append.mp hg with hg | hg
      · exact (executed_affects hturn).foreign hf g hg
      · exact h.outer g (List.mem_cons_of_mem _ hg)

theorem Contract.turn_failing (h : Contract s (s.interestIn loop) (f :: rest) left)
    (hturn : Executed self t loop s f answer turn) {k : Caller} (hk : .relock k ∈ turn.push ++ rest) :
    turn.obj.backlog = true := by
  have hleaves := executed_leaves hturn
  rcases List.mem_append.mp hk with hk | hk
  · obtain ⟨rfl, hsame⟩ := hleaves.relock k hk
    exact hsame.trans (left_of_pump h.standing).2.1
  · rcases hleaves.backlog (h.failing k (List.mem_cons_of_mem _ hk)) with ⟨k', rfl⟩ | ⟨r, rfl⟩ | hb
    · cases k' with
      | write => exact (h.standing.2.2.2.2 k hk).elim
      | onIo =>
          rw [h.alone id] at hk
          cases hk
    · rw [h.alone id] at hk
      cases hk
    · exact hb

theorem Contract.executed (h : Contract s (s.interestIn loop) (f :: rest) left)
    (hturn : Executed self t loop s f answer turn) :
    Contract turn.obj (turn.obj.interestIn turn.loop) (turn.push ++ rest) (leftAfter left f turn) where
  outer := h.turn_outer hturn
  resting := (executed_plain hturn).resting h.resting
  failing _ hk := h.turn_failing hturn hk
  standing := standing_turn h hturn

/-- A `write` that is through has sent everything; one whose `send` failed is not. -/
theorem Contract.through (h : Contract s (s.interestIn loop) (f :: rest) left)
    (hturn : Executed self t loop s f answer turn) (hf : f.Decides = true) (hpush : turn.push = []) :
    turn.obj.backlog = false ∧ f ≠ .relock .write := by
  cases hturn with
  | @write chunk =>
      refine ⟨?_, by simp⟩
      rcases write_cases t loop s chunk with ⟨-, heq⟩ | ⟨-, -, heq⟩ | ⟨-, -, heq⟩
      · simp [heq, fail, emit] at hpush
      · simp [heq] at hpush
      · rcases pumpOutput_cases t loop { s with outbuf := s.outbuf ++ chunk } .write [.queued chunk] with
          ⟨-, hp⟩ | ⟨-, push, hp, -⟩
        · simp [heq, hp] at hpush
        · rw [heq, hp]
          rfl
  | @pump k _ _ _ hturn =>
      refine ⟨?_, by simp⟩
      cases k with
      | write =>
          cases pump_pumped h.standing.2.1 hturn with
          | flushed => rfl
          | more | blocked | failed => cases hpush
      | onIo => cases hf
  | @relock k =>
      have hb := h.failing k List.mem_cons_self
      cases k with
      | write => simp [afterPump, hb] at hpush
      | onIo => cases hf
  | raise | halfClose | onIo | connected | refused | setOpen | lowerConnected | afterConnect | pumpOutput | lowerDrained
    | afterDrain | recv | closeBegin | closeUnwatch | closeDesc | notOpened | opened | nonblocking | blocking | connecting
    | unreachable | storeConnect | watchConnect | dropLocal => cases hf

theorem Contract.enter (h : Contract s e st left) (hst : ∀ g ∈ st, g.Resting) (hf : f.Foreign ∨ st = [])
    (hnew : ∀ k, f ≠ .relock k) (hstanding : Calm s e (f :: st) left → Standing s e (f :: st) left) :
    Contract s e (f :: st) left := by
  have hcalm : Calm s e st left := (standing_iff_calm hst).mp h.standing
  refine ⟨?_, hst, ?_, hstanding (hcalm.move rfl rfl fun g hg _ => List.mem_cons_of_mem f hg)⟩
  · intro g hg
    cases st with
    | nil => simp at hg
    | cons p st =>
        rw [List.dropLast_cons_cons] at hg
        rcases List.mem_cons.mp hg with rfl | hg
        · exact hf.resolve_right (List.cons_ne_nil p st)
        · exact h.outer g hg
  · intro k hk
    exact h.failing k ((List.mem_cons.mp hk).resolve_left fun heq => hnew k heq.symm)

theorem Contract.leave (h : Contract s e (.user :: rest) left) : Contract s e rest left := by
  have hcalm : Calm s e (.user :: rest) left := h.standing
  have hrest : Calm s e rest left := by
    refine hcalm.move rfl rfl ?_
    intro g hg hga
    exact (List.mem_cons.mp hg).resolve_left fun heq => (heq ▸ hga : Frame.Awaited .user).elim
  refine ⟨?_, fun g hg => h.resting g (List.mem_of_mem_tail hg), ?_, hrest.standing h.resting⟩
  · intro g hg
    refine h.outer g ?_
    cases rest with
    | nil => simp at hg
    | cons p rest => exact List.mem_cons_of_mem _ hg
  · exact fun k hk => h.failing k (List.mem_cons_of_mem _ hk)

def pendingDrain (st : List Frame) : Nat := if st.head?.any Frame.Lowers then 1 else 0

theorem pendingDrain_eq (h : ∀ r, st.head? ≠ some (.lowerDrained r)) : pendingDrain st = 0 := by
  unfold pendingDrain
  cases st with
  | nil => rfl
  | cons f rest =>
      cases f with
      | lowerDrained r => exact (h r rfl).elim
      | user | write | pump | relock | raise | «end» | onIo | pendingError | setOpen | lowerConnected | afterConnect
        | pumpOutput | afterDrain | recv | closeBegin | closeUnwatch | closeDesc | openSocket | setNonblocking
        | connectTo | storeConnect | watchConnect | dropLocal => rfl

/-- 'drain' is emitted once for each time that a left backlog is emptied. -/
theorem Contract.counted (h : Contract s (s.interestIn loop) (f :: rest) left)
    (hturn : Executed self t loop s f answer turn) :
    turn.notes.count (.emitted .drain) + pendingDrain (turn.push ++ rest) =
      pendingDrain (f :: rest) + if left && !turn.obj.backlog then 1 else 0 := by
  by_cases hf : ∃ r, f = .lowerDrained r
  · obtain ⟨r, rfl⟩ := hf
    obtain ⟨-, -, -, rfl⟩ := h.standing
    cases hturn
    rfl
  have hnone : turn.notes.count (.emitted .drain) = 0 :=
    List.count_eq_zero.mpr fun hn => hf ((executed_drains hturn).drain hn)
  have hbefore : pendingDrain (f :: rest) = 0 := pendingDrain_eq fun r hr => hf ⟨r, Option.some.inj hr⟩
  rw [hnone, hbefore, Nat.zero_add, Nat.zero_add]
  by_cases hemptied : left = true ∧ turn.obj.backlog = false
  · obtain ⟨hleft, hback⟩ := hemptied
    obtain ⟨r, -, -, hpush, -⟩ := h.emptied hturn hleft hback
    simp [pendingDrain, hpush, Frame.Lowers, hleft, hback]
  · have hkept : (left && !turn.obj.backlog) = false := by
      cases left <;> cases hb : turn.obj.backlog <;> simp_all
    rw [hkept]
    refine pendingDrain_eq ?_
    intro r hr
    rcases hst : turn.push ++ rest with _ | ⟨g, st⟩
    · simp [hst] at hr
    · rw [hst] at hr
      cases Option.some.inj hr
      rcases top_cases hst with ⟨tail, hp, -⟩ | ⟨-, hrest⟩
      · exact hemptied (h.lowered hturn (by simp [hp] : .lowerDrained r ∈ turn.push))
      · exact h.resting (.lowerDrained r) (by simp [hrest])

end Socket
end CxNetworking.Tcp
