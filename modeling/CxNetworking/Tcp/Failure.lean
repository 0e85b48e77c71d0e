import CxNetworking.Tcp.Reconnect

/-! 'error' and the 'close' that is to follow it. `fail` emits the first and leaves the second
to `close_with`, which emits it only for a socket that holds a descriptor. -/
namespace CxNetworking.Tcp
open CxNetworking.Core Execution

/-- Every 'error' is followed by a 'close'. -/
def ErrorsClosed (log : List Note) : Prop :=
  ∀ later f earlier, log = later ++ .emitted (.error f) :: earlier → .emitted .close ∈ later

def Note.Fails : Note → Bool
  | .emitted (.error _) => true
  | _ => false

def Frame.Closes : Frame → Prop
  | .closeUnwatch | .closeDesc => True
  | _ => False

theorem ErrorsClosed.append {notes log : List Note} (h : ErrorsClosed log) (hnotes : ∀ n ∈ notes, n.Fails = false) :
    ErrorsClosed (notes ++ log) := by
  induction notes with
  | nil => exact h
  | cons n notes ih =>
      intro later f earlier heq
      cases later with
      | nil =>
          have hn := hnotes n List.mem_cons_self
          rw [(List.cons.inj heq).1] at hn
          cases hn
      | cons m later =>
          have hrest := ih (fun m hm => hnotes m (List.mem_cons_of_mem _ hm)) later f earlier (List.cons.inj heq).2
          exact List.mem_cons_of_mem _ hrest

theorem errorsClosed_close (log : List Note) : ErrorsClosed (.emitted .close :: log) := by
  intro later f earlier heq
  cases later with
  | nil => cases (List.cons.inj heq).1
  | cons n later =>
      rw [← (List.cons.inj heq).1]
      exact List.mem_cons_self

theorem Frame.Closes.not_resting {f : Frame} (h : f.Closes) : ¬ f.Resting := by
  cases f <;> first | exact id | exact h.elim

theorem Frame.Starting.not_resting {f : Frame} (h : f.Starting) : ¬ f.Resting := by
  cases f <;> first | exact id | exact h.elim

theorem Frame.Starting.not_foreign {f : Frame} (h : f.Starting) : ¬ f.Foreign := by
  cases f <;> first | exact id | exact h.elim

namespace Socket

variable {κ δ : Type} {self : κ} {t : Nat} {loop : EventLoop κ δ} {s : Socket} {f : Frame} {answer : Kernel}
  {turn : Turn κ δ}

/-- What a turn has to do with 'error' and 'close'. -/
structure Tears (s : Socket) (f : Frame) (turn : Turn κ δ) : Prop where
  fails : ∀ n ∈ turn.notes, n.Fails = true →
    .closeBegin ∈ turn.push ∧ turn.obj.state = s.state ∧ turn.obj.desc = s.desc
  close : .emitted .close ∈ turn.notes → f = .closeDesc
  closes : ∀ g ∈ turn.push, g.Closes → f = .closeBegin ∧ s.state ≠ .closed ∧ valid s.desc = true ∨ f = .closeUnwatch

theorem afterPump_tears {s' : Socket} {notes : List Note} {k : Caller} (hnotes : ∀ n ∈ notes, n.Inert) :
    Tears s f (afterPump t loop s' notes k) := by
  have hquiet : ∀ n ∈ notes, n.Fails = false ∧ n ≠ .emitted .close := by
    intro n hn
    have hinert := hnotes n hn
    cases n <;> first | exact hinert.elim | exact ⟨rfl, by simp⟩
  refine ⟨fun n hn hf => ?_, fun hn => ?_, ?_⟩
  · rw [afterPump_notes] at hn
    cases (hquiet n hn).1.symm.trans hf
  · rw [afterPump_notes] at hn
    exact ((hquiet _ hn).2 rfl).elim
  · rcases afterPump_cases t loop s' k notes with
      ⟨-, -, heq⟩ | ⟨-, -, heq⟩ | ⟨r, -, -, heq⟩ | ⟨r, -, -, heq⟩ <;> rw [heq]
    · simp [Frame.Closes]
    · simp
    · rcases readHalf_eq r with hr | hr <;> simp [hr, Frame.Closes]
    · simp [Frame.Closes]

theorem pumpOutput_tears {s' : Socket} {notes : List Note} {k : Caller} (hnotes : ∀ n ∈ notes, n.Inert) :
    Tears s f (pumpOutput t loop s' notes k) := by
  unfold pumpOutput
  split
  · refine ⟨fun n hn hf => ?_, fun hn => (hnotes _ hn).elim, by simp [Frame.Closes]⟩
    have hinert := hnotes n hn
    cases n <;> first | exact hinert.elim | cases hf
  · exact afterPump_tears hnotes

theorem executed_tears (h : Executed self t loop s f answer turn) : Tears s f turn := by
  cases h with
  | @write chunk =>
      rcases write_cases t loop s chunk with ⟨-, heq⟩ | ⟨-, -, heq⟩ | ⟨-, -, heq⟩ <;> rw [heq]
      · constructor <;> simp [fail, emit, Frame.Closes]
      · constructor <;> simp [Note.Fails, Frame.Closes]
      · exact pumpOutput_tears (by simp [Note.Inert])
  | pump _ h =>
      rcases pump_cases h with ⟨n, -, -, rfl⟩ | rfl | rfl | ⟨e, rfl⟩
      · exact pumpOutput_tears (by simp [Note.Inert])
      · exact afterPump_tears (by simp)
      · constructor <;> simp [Frame.Closes]
      · constructor <;> simp [fail, emit, Frame.Closes]
  | relock => exact afterPump_tears (by simp)
  | pumpOutput => exact pumpOutput_tears (by simp)
  | recv _ h =>
      rcases recv_cases h with rfl | ⟨chunk, rfl⟩ | rfl | rfl | ⟨e, rfl⟩ <;> constructor <;>
        simp [fail, emit, Note.Fails, Frame.Closes]
  | halfClose => constructor <;> simp +contextual [halfClose, Note.Fails]
  | @onIo r =>
      rcases readHalf_eq r with hr | hr <;> cases hs : s.state <;> cases hw : r.writable <;> constructor <;>
        simp [Socket.onIo, hs, hw, hr, Frame.Closes]
  | @afterDrain r =>
      rcases readHalf_eq r with hr | hr <;> constructor <;> simp [afterDrain, hr, Note.Fails, Frame.Closes]
  | afterConnect =>
      unfold afterConnect
      split <;> constructor <;> simp [Frame.Closes]
  | closeBegin =>
      refine ⟨by simp [closeBegin], by simp [closeBegin], fun g hg _ => ?_⟩
      simp only [closeBegin] at hg
      split at hg
      · next hlive => exact .inl ⟨rfl, hlive⟩
      · cases hg
  | refused | lowerConnected | lowerDrained | closeDesc | notOpened | blocking | unreachable =>
      constructor <;> simp [fail, emit, Note.Fails, Frame.Closes]
  | raise | connected | setOpen | closeUnwatch | opened | nonblocking | connecting | storeConnect
    | watchConnect | dropLocal => constructor <;> simp [setOpen, storeConnect, Frame.Closes]

/-- The answers, and for `write` the state, on which the code behind a frame goes into `fail`. -/
def refuses (s : Socket) : Frame → Kernel → Bool
  | .write _, _ => s.state != .open
  | .pump _, .sent n => n == 0
  | .pump _, .failed e | .recv, .failed e => !e.wouldBlock && e != .interrupted
  | .pendingError, .status e | .setNonblocking _ _, .status e => e != .success
  | .connectTo _ _, .status e => e != .success && e != .inProgress
  | .openSocket _, .failed _ => true
  | _, _ => false

/-- The three ways to go on after a call that failed; only the last one goes into `fail`. -/
theorem failed_fails {e : Errc} {blocked retried failed : Turn κ δ}
    (h : (if e.wouldBlock then some blocked else if e = .interrupted then some retried else some failed) = some turn)
    (hblocked : blocked.notes.any Note.Fails = false) (hretried : retried.notes.any Note.Fails = false)
    (hfailed : failed.notes.any Note.Fails = true) :
    turn.notes.any Note.Fails = (!e.wouldBlock && e != .interrupted) := by
  split at h
  next hb =>
    cases h
    rw [hblocked, hb]
    rfl
  next hb =>
    rw [Bool.eq_false_iff.mpr hb]
    split at h
    next hi =>
      cases h
      rw [hretried, hi]
      rfl
    next hi =>
      cases h
      rw [hfailed, bne_iff_ne.mpr hi]
      rfl

theorem pump_fails {k : Caller} (h : pump t loop s k answer = some turn) :
    turn.notes.any Note.Fails = s.refuses (.pump k) answer := by
  cases answer with
  | sent n =>
      obtain ⟨-, h⟩ := Option.ite_none_right_eq_some.mp h
      split at h
      next hn =>
        cases h
        rw [pumpOutput_notes, refuses, beq_eq_false_iff_ne.mpr (Nat.ne_of_gt hn)]
        rfl
      next hn =>
        cases h
        rw [refuses, Nat.eq_zero_of_not_pos hn]
        rfl
  | failed e => exact failed_fails h (by rw [afterPump_notes]; rfl) rfl rfl
  | none | got | status | opened | accepted | received | resolved | endpoint => cases h

theorem recv_fails (h : recv loop s answer = some turn) : turn.notes.any Note.Fails = s.refuses .recv answer := by
  unfold recv at h
  split at h
  · cases h
    rfl
  · cases h
    rfl
  · exact failed_fails h rfl rfl rfl
  · cases h

/-- A turn emits 'error' exactly when it is refused. -/
theorem executed_fails (h : Executed self t loop s f answer turn) : turn.notes.any Note.Fails = s.refuses f answer := by
  cases h with
  | @write chunk =>
      rcases write_cases t loop s chunk with ⟨hs, heq⟩ | ⟨hs, -, heq⟩ | ⟨hs, -, heq⟩ <;> rw [heq, refuses]
      · rw [bne_iff_ne.mpr hs]
        rfl
      · rw [hs]
        rfl
      · rw [pumpOutput_notes, hs]
        rfl
  | pump _ h => exact pump_fails h
  | recv _ h => exact recv_fails h
  | relock => rw [afterPump_notes]; rfl
  | pumpOutput => rw [pumpOutput_notes]; rfl
  | halfClose =>
      unfold halfClose
      split <;> rfl
  | afterDrain =>
      unfold afterDrain
      split <;> rfl
  | afterConnect =>
      unfold afterConnect
      split <;> rfl
  | refused he | blocking he => exact (bne_iff_ne.mpr he).symm
  | connecting he => rcases he with rfl | rfl <;> rfl
  | unreachable he =>
      obtain ⟨hs, hp⟩ := not_or.mp he
      rw [refuses, bne_iff_ne.mpr hs, bne_iff_ne.mpr hp]
      rfl
  | raise | onIo | connected | setOpen | lowerConnected | lowerDrained | closeBegin | closeUnwatch | closeDesc | notOpened
    | opened | nonblocking | storeConnect | watchConnect | dropLocal => rfl

end Socket

namespace Conn

variable {c d : Conn} {a : ConnLabel}

/-- A step on which the code goes into `fail`: a refused turn, or a resolution without results. -/
def refuses (c : Conn) : ConnLabel → Bool
  | .turn t k => (c.threads t).head?.any (c.sock.refuses · k)
  | .deferred => c.loop.deferred.head? == some []
  | _ => false

/-- Only a socket that holds a descriptor is refused anything, `open` is stored over
`connecting` only, and `connect` is called once, before there is a descriptor. -/
def KeepsDescriptor (c : Conn) (a : ConnLabel) : Prop :=
  (c.refuses a = true → valid c.sock.desc = true) ∧
  match a with
  | .call _ call => call = .connect →
      .called .connect ∉ c.log ∧ .emitted .close ∉ c.log ∧ valid c.sock.desc = false
  | .turn t _ => (c.threads t).head? = some .setOpen → c.sock.state = .connecting
  | _ => True

instance (c : Conn) (a : ConnLabel) : Decidable (c.KeepsDescriptor a) :=
  match a with
  | .call _ _ => inferInstanceAs (Decidable ((_ → _) ∧ (_ → _)))
  | .turn _ _ => inferInstanceAs (Decidable ((_ → _) ∧ (_ → _)))
  | .ret _ | .io _ _ | .resolved _ | .deferred => inferInstanceAs (Decidable ((_ → _) ∧ True))

/-- At most one `connect` is under way, and none before it is called. -/
structure Once (c : Conn) : Prop where
  sum : c.resolving + c.loop.deferred.length ≤ 1
  starting : ∀ t, ∀ f ∈ c.threads t, f.Starting → c.resolving = 0 ∧ c.loop.deferred = []
  called : .called .connect ∉ c.log → c.NoConnect

theorem step_called (h : c.Once) (hd : c.step a = some d) (hnot : .called .connect ∉ d.log) : d.NoConnect := by
  obtain ⟨notes, hlog⟩ := step_log hd
  refine step_noConnect (h.called fun hm => hnot (hlog ▸ List.mem_append_right _ hm)) ?_ hd
  rintro t rfl
  obtain ⟨-, hd⟩ := Option.ite_none_right_eq_some.mp hd
  cases hd
  exact hnot List.mem_cons_self

theorem starting_step (hd : c.step a = some d) {u : Nat} {g : Frame} (hg : g ∈ d.threads u) (hs : g.Starting) :
    (∃ f ∈ c.threads u, f.Starting) ∨ a = .deferred := by
  rcases mem_step hd hg with hg | ⟨call, -, hg⟩ | ⟨f, turn, ⟨k, rest, -, hst, hturn, -⟩, hg⟩ |
    ⟨-, ⟨r, rfl⟩ | rfl | rfl | ⟨⟨ha, -⟩, -⟩⟩
  · exact .inl ⟨g, hg, hs⟩
  · cases call <;> simp_all [Call.frames, Frame.Starting]
  · exact .inl ⟨f, by simp [hst], (Socket.executed_owns hturn).starting g hg hs⟩
  · exact hs.elim
  · exact hs.elim
  · exact hs.elim
  · exact .inr ha

theorem step_once (h : c.Once) (hok : c.KeepsDescriptor a) (hd : c.step a = some d) : d.Once := by
  have hstarting : a ≠ .deferred → ∀ u, ∀ g ∈ d.threads u, g.Starting → c.resolving = 0 ∧ c.loop.deferred = [] := by
    intro ha u g hg hs
    obtain ⟨f, hf, hs⟩ := (starting_step hd hg hs).resolve_right ha
    exact h.starting u f hf hs
  have hcalled := step_called h hd
  rcases step_spec hd with ⟨t, call, rfl, -, rfl⟩ | ⟨t, rest, rfl, -, rfl⟩ | ⟨t, k, f, rest, turn, rfl, -, hturn, rfl⟩ |
    ⟨hd, r, rfl, -, -, rfl⟩ | ⟨addrs, rfl, rfl⟩ | ⟨addrs, deferred, rfl, -, hdef, rfl⟩
  · by_cases hcall : call = .connect
    · have hidle := h.called (hok.2 hcall).1
      subst hcall
      refine ⟨?_, fun u g hg hs => ?_, hcalled⟩
      · simp [hidle.resolving, hidle.deferred]
      · obtain ⟨f, hf, hs⟩ := (starting_step hd hg hs).resolve_right (by simp)
        exact (hidle.starting u f hf hs).elim
    · refine ⟨?_, ?_, hcalled⟩ <;> simp only [if_neg hcall]
      · exact h.sum
      · exact hstarting (by simp)
  · exact ⟨h.sum, hstarting (by simp), hcalled⟩
  · have hdef := Socket.executed_deferred hturn
    refine ⟨?_, ?_, hcalled⟩ <;> simp only [apply, hdef]
    · exact h.sum
    · exact hstarting (by simp)
  · exact ⟨h.sum, hstarting (by simp), hcalled⟩
  · obtain ⟨hpos, -⟩ := Option.ite_none_right_eq_some.mp hd
    refine ⟨?_, fun u g hg hs => ?_, hcalled⟩
    · have := h.sum
      simp only [EventLoop.defer, EventLoop.interrupt, EventLoop.pushDeferred, List.length_append, List.length_singleton]
      omega
    · have := (hstarting (by simp) u g hg hs).1
      omega
  · have hsum := h.sum
    rw [hdef, List.length_cons] at hsum
    have hlast : c.resolving = 0 ∧ deferred = [] := ⟨by omega, List.eq_nil_of_length_eq_zero (by omega)⟩
    refine ⟨?_, fun u g hg hs => ?_, hcalled⟩
    · simp [apply, connectResolved_loop, hlast]
    · simp [apply, connectResolved_loop, hlast]

/-- Once the only `connect` has stored its descriptor, none is under way. -/
theorem store_noConnect (hl : c.Layered) (h : c.Once) {t : Nat} {f : Frame} {rest : List Frame} {k : Kernel}
    {turn : Turn Unit (List SocketAddress)} (hst : c.threads t = f :: rest)
    (hturn : Socket.Executed () t c.loop c.sock f k turn) (hf : f.Stores = true) : (c.apply t rest turn).NoConnect := by
  cases hturn with
  | @storeConnect desc addr =>
      obtain ⟨hresolving, hdeferred⟩ := h.starting t (.storeConnect desc addr) (by simp [hst]) trivial
      refine ⟨hresolving, hdeferred, fun u g hg hs => ?_⟩
      have hloop : ∀ v, ∀ g ∈ c.threads v, g.Starting → v = loopThread := by
        intro v g hg hs
        by_contra hv
        exact hs.not_foreign (hl.foreign v hv g hg)
      rcases mem_apply hg with ⟨-, hg⟩ | ⟨-, hg⟩ | ⟨hu, hg⟩
      · cases List.mem_singleton.mp hg
        exact hs
      · exact hs.not_resting (hl.resting t g (by simp [hst, hg]))
      · exact hu ((hloop u g hg hs).trans (hloop t (.storeConnect desc addr) (by simp [hst]) trivial).symm)
  | _ => cases hf

/-- What a step adds to the log. -/
theorem step_notes (hd : c.step a = some d) :
    ∃ notes, d.log = notes ++ c.log ∧
      (.emitted .close ∈ notes → notes = [.emitted .close] ∧ ∃ t turn, c.Takes a d t .closeDesc turn) ∧
      ∀ n ∈ notes, n.Fails = true → c.refuses a = true ∧
        ((∃ t f turn, c.Takes a d t f turn ∧ n ∈ turn.notes) ∨ c.loop.deferred ≠ []) := by
  rcases step_spec hd with ⟨t, call, -, -, rfl⟩ | ⟨t, rest, -, -, rfl⟩ | ⟨t, k, f, rest, turn, ha, hst, hturn, rfl⟩ |
    ⟨h, r, -, -, -, rfl⟩ | ⟨addrs, -, rfl⟩ | ⟨addrs, deferred, ha, -, hdef, rfl⟩
  · exact ⟨[.called call], rfl, by simp, by simp [Note.Fails]⟩
  · exact ⟨[], rfl, by simp, by simp⟩
  · refine ⟨turn.notes, rfl, fun hn => ?_, fun n hn hf => ?_⟩
    · obtain rfl := (Socket.executed_tears hturn).close hn
      refine ⟨?_, t, turn, k, rest, ha, hst, hturn, rfl⟩
      cases hturn
      rfl
    · have hrefused : c.sock.refuses f k = true :=
        (Socket.executed_fails hturn).symm.trans (List.any_eq_true.mpr ⟨n, hn, hf⟩)
      refine ⟨?_, .inl ⟨t, f, turn, ⟨k, rest, ha, hst, hturn, rfl⟩, hn⟩⟩
      rwa [ha, refuses, hst]
  · exact ⟨[], rfl, by simp, by simp⟩
  · exact ⟨[], rfl, by simp, by simp⟩
  · refine ⟨(connectResolved { c.loop with deferred } c.sock addrs).notes, rfl, ?_, fun n hn hf => ?_⟩
    · cases addrs <;> simp [connectResolved, Socket.fail, Socket.emit]
    · refine ⟨?_, .inr (by simp [hdef])⟩
      cases addrs with
      | nil => rw [ha, refuses, hdef]; rfl
      | cons addr addrs => cases hn

def Closing (c : Conn) : Prop := ∃ t, ∃ f ∈ c.threads t, f.Closes

/-- The socket holds a descriptor or is past it, one thread at a time closes it, and an
'error' without its 'close' has a thread that will bring it. -/
structure Torn (c : Conn) : Prop where
  layered : c.Layered
  once : c.Once
  held : valid c.sock.desc = true → c.NoConnect
  closing : ∀ t, ∀ f ∈ c.threads t, f.Closes →
    c.sock.state = .closed ∧ valid c.sock.desc = true ∧ .emitted .close ∉ c.log
  alone : ∀ t u, ∀ f ∈ c.threads t, ∀ g ∈ c.threads u, f.Closes → g.Closes → t = u
  closed : .emitted .close ∈ c.log →
    valid c.sock.desc = false ∧ c.NoConnect ∧ c.log.count (.emitted .close) = 1
  live : valid c.sock.desc = true → c.sock.state = .closed → c.Closing
  owed : ErrorsClosed c.log ∨ c.Closing ∨
    valid c.sock.desc = true ∧ c.sock.state ≠ .closed ∧ ∃ t, .closeBegin ∈ c.threads t

theorem KeepsDescriptor.setOpen (h : c.KeepsDescriptor a) (t : Nat) (k : Kernel) (ha : a = .turn t k) :
    (c.threads t).head? = some .setOpen → c.sock.state = .connecting := by
  subst ha
  exact h.2

/-- A socket that has a descriptor, or had one, is not connected again. -/
theorem noConnect_kept (h : c.NoConnect) (hok : c.KeepsDescriptor a) (hd : c.step a = some d)
    (hused : valid c.sock.desc = true ∨ .emitted .close ∈ c.log) : d.NoConnect := by
  refine step_noConnect h ?_ hd
  rintro t rfl
  obtain ⟨-, hopen, hinvalid⟩ := hok.2 rfl
  rcases hused with hv | hc
  · cases hinvalid.symm.trans hv
  · exact hopen hc

theorem takes_closeBegin {t : Nat} {turn : Turn Unit (List SocketAddress)} (ht : c.Takes a d t .closeBegin turn) :
    d.sock = { c.sock with state := .closed } ∧ d.log = c.log ∧
      (c.sock.state ≠ .closed → valid c.sock.desc = true → d.Closing) := by
  obtain ⟨k, rest, -, hst, hturn, rfl⟩ := ht
  cases hturn
  refine ⟨rfl, rfl, fun hs hv => ⟨t, .closeUnwatch, mem_apply_push ?_, trivial⟩⟩
  simp [Socket.closeBegin, hs, hv]

theorem takes_closeDesc {t : Nat} {turn : Turn Unit (List SocketAddress)} (ht : c.Takes a d t .closeDesc turn) :
    valid d.sock.desc = false ∧ d.log = .emitted .close :: c.log := by
  obtain ⟨k, rest, -, -, hturn, rfl⟩ := ht
  cases hturn
  exact ⟨rfl, rfl⟩

/-- A thread that closes goes on until it has closed the descriptor. -/
theorem closing_kept (hd : c.step a = some d) (h : c.Closing) :
    d.Closing ∨ ∃ t turn, c.Takes a d t .closeDesc turn := by
  obtain ⟨t, f, hf, hcloses⟩ := h
  rcases step_keeps hd hf (by rintro rfl; exact hcloses) with hkept | ⟨turn, htakes⟩
  · exact .inl ⟨t, f, hkept, hcloses⟩
  · cases f with
    | closeUnwatch =>
        obtain ⟨k, rest, -, -, hturn, rfl⟩ := htakes
        cases hturn
        exact .inl ⟨t, .closeDesc, mem_apply_push List.mem_cons_self, trivial⟩
    | closeDesc => exact .inr ⟨t, turn, htakes⟩
    | _ => exact hcloses.elim

theorem closes_step (hd : c.step a = some d) {u : Nat} {g : Frame} (hg : g ∈ d.threads u) (hcloses : g.Closes) :
    (∃ f ∈ c.threads u, f.Closes) ∨
      c.sock.state ≠ .closed ∧ valid c.sock.desc = true ∧ ∃ turn, c.Takes a d u .closeBegin turn := by
  rcases mem_step hd hg with hg | ⟨call, -, hg⟩ | ⟨f, turn, htakes, hg⟩ | ⟨-, ⟨r, rfl⟩ | rfl | rfl | ⟨-, addr, rfl⟩⟩
  · exact .inl ⟨g, hg, hcloses⟩
  · cases call <;> simp_all [Call.frames, Frame.Closes]
  · obtain ⟨k, hturn⟩ := htakes.executed
    rcases (Socket.executed_tears hturn).closes g hg hcloses with ⟨rfl, hs, hv⟩ | rfl
    · exact .inr ⟨hs, hv, turn, htakes⟩
    · exact .inl ⟨.closeUnwatch, htakes.mem, trivial⟩
  · exact hcloses.elim
  · exact hcloses.elim
  · exact hcloses.elim
  · exact hcloses.elim

section Step

variable (h : c.Torn) (hok : c.KeepsDescriptor a) (hd : c.step a = some d)
include h hd

/-- The thread that has closed the descriptor was the only one to do so. -/
theorem not_closing_after {t : Nat} {turn : Turn Unit (List SocketAddress)} (ht : c.Takes a d t .closeDesc turn) :
    ¬ d.Closing := by
  rintro ⟨u, g, hg, hcloses⟩
  have hmem := ht.mem
  rcases closes_step hd hg hcloses with ⟨f, hf, hfc⟩ | ⟨hs, -⟩
  · obtain rfl := h.alone t u _ hmem f hf trivial hfc
    obtain ⟨k, rest, -, hst, hturn, rfl⟩ := ht
    cases hturn
    rcases mem_apply hg with ⟨-, hg⟩ | ⟨-, hg⟩ | ⟨hne, -⟩
    · cases List.mem_singleton.mp hg
      exact hcloses
    · exact hcloses.not_resting (h.layered.resting t g (by simp [hst, hg]))
    · exact hne rfl
  · exact hs (h.closing t _ hmem trivial).1

include hok

theorem held_step (hvalid : valid d.sock.desc = true) : d.NoConnect := by
  rcases step_sock hd with hsock | ⟨t, f, turn, k, rest, rfl, hst, hturn, rfl⟩
  · rw [hsock] at hvalid
    exact noConnect_kept (h.held hvalid) hok hd (.inl hvalid)
  · by_cases hf : f.Stores = true
    · exact store_noConnect h.layered h.once hst hturn hf
    · have hold : valid c.sock.desc = true := by
        simp only [apply] at hvalid
        rcases Socket.executed_desc hturn with hdesc | ⟨-, hobj⟩ | ⟨desc, addr, rfl, -⟩
        · rwa [hdesc] at hvalid
        · rw [hobj] at hvalid
          cases hvalid
        · exact (hf rfl).elim
      exact noConnect_kept (h.held hold) hok hd (.inl hold)

theorem closing_step (u : Nat) (g : Frame) (hg : g ∈ d.threads u) (hcloses : g.Closes) :
    d.sock.state = .closed ∧ valid d.sock.desc = true ∧ .emitted .close ∉ d.log := by
  have hclosing : d.Closing := ⟨u, g, hg, hcloses⟩
  rcases closes_step hd hg hcloses with ⟨f, hf, hfc⟩ | ⟨-, hvalid, turn, htakes⟩
  · obtain ⟨hclosed, hvalid, hopen⟩ := h.closing u f hf hfc
    refine ⟨closed_kept (h.held hvalid) hok.setOpen hd hclosed, ?_, ?_⟩
    · rcases step_sock hd with hsock | ⟨t, f, turn, htakes⟩
      · rwa [hsock]
      · rcases desc_cases (h.held hvalid) htakes with hdesc | ⟨rfl, -⟩
        · rwa [hdesc]
        · exact (not_closing_after h hd htakes hclosing).elim
    · obtain ⟨notes, hlog, hclose, -⟩ := step_notes hd
      rw [hlog]
      intro hm
      rcases List.mem_append.mp hm with hm | hm
      · obtain ⟨-, t, turn, htakes⟩ := hclose hm
        exact not_closing_after h hd htakes hclosing
      · exact hopen hm
  · obtain ⟨hsock, hlog, -⟩ := takes_closeBegin htakes
    rw [hsock, hlog]
    refine ⟨rfl, hvalid, fun hm => ?_⟩
    cases (h.closed hm).1.symm.trans hvalid

omit hok in
theorem alone_step (t u : Nat) (f : Frame) (hf : f ∈ d.threads t) (g : Frame) (hg : g ∈ d.threads u)
    (hfc : f.Closes) (hgc : g.Closes) : t = u := by
  rcases closes_step hd hf hfc with ⟨f', hf', hfc'⟩ | ⟨hs, -, turn, htakes⟩ <;>
    rcases closes_step hd hg hgc with ⟨g', hg', hgc'⟩ | ⟨hs', -, turn', htakes'⟩
  · exact h.alone t u f' hf' g' hg' hfc' hgc'
  · exact (hs' (h.closing t f' hf' hfc').1).elim
  · exact (hs (h.closing u g' hg' hgc').1).elim
  · obtain ⟨k, rest, ha, -⟩ := htakes
    obtain ⟨k', rest', ha', -⟩ := htakes'
    cases ha.symm.trans ha'
    rfl

theorem closed_step (hm : .emitted .close ∈ d.log) :
    valid d.sock.desc = false ∧ d.NoConnect ∧ d.log.count (.emitted .close) = 1 := by
  obtain ⟨notes, hlog, hclose, -⟩ := step_notes hd
  by_cases hnew : .emitted .close ∈ notes
  · obtain ⟨rfl, t, turn, htakes⟩ := hclose hnew
    obtain ⟨-, hvalid, hopen⟩ := h.closing t _ htakes.mem trivial
    refine ⟨(takes_closeDesc htakes).1, noConnect_kept (h.held hvalid) hok hd (.inl hvalid), ?_⟩
    rw [hlog, List.singleton_append, List.count_cons_self, List.count_eq_zero.mpr hopen]
  · rw [hlog] at hm
    have hold := (List.mem_append.mp hm).resolve_left hnew
    obtain ⟨hinvalid, hidle, hcount⟩ := h.closed hold
    refine ⟨invalid_kept hidle hd hinvalid, noConnect_kept hidle hok hd (.inr hold), ?_⟩
    rw [hlog, List.count_append, List.count_eq_zero.mpr hnew, hcount]

omit hok in
theorem live_step (hvalid : valid d.sock.desc = true) (hclosed : d.sock.state = .closed) : d.Closing := by
  have hkept : valid c.sock.desc = true → c.sock.state = .closed → d.Closing := by
    intro hv hs
    refine (closing_kept hd (h.live hv hs)).resolve_right ?_
    rintro ⟨t, turn, htakes⟩
    cases (takes_closeDesc htakes).1.symm.trans hvalid
  rcases step_sock hd with hsock | ⟨t, f, turn, k, rest, ha, hst, hturn, heq⟩
  · rw [hsock] at hvalid hclosed
    exact hkept hvalid hclosed
  · have hold : valid c.sock.desc = true := by
      rw [heq] at hvalid hclosed
      simp only [apply] at hvalid hclosed
      rcases Socket.executed_desc hturn with hdesc | ⟨-, hobj⟩ | ⟨desc, addr, -, hs⟩
      · rwa [hdesc] at hvalid
      · rw [hobj] at hvalid
        cases hvalid
      · cases hs.symm.trans hclosed
    by_cases hs : c.sock.state = .closed
    · exact hkept hold hs
    · rcases (Socket.executed_affects hturn).state with hsame | rfl | ⟨rfl, -⟩ | ⟨desc, addr, -, hs'⟩
      · rw [heq] at hclosed
        exact (hs (hsame.symm.trans hclosed)).elim
      · rw [heq] at hclosed
        cases hturn
        cases hclosed
      · exact (takes_closeBegin ⟨k, rest, ha, hst, hturn, heq⟩).2.2 hs hold
      · rw [heq] at hclosed
        cases hs'.symm.trans hclosed

omit hok in
theorem pending_step (hvalid : valid c.sock.desc = true) (hs : c.sock.state ≠ .closed) {t : Nat}
    (ht : .closeBegin ∈ c.threads t) :
    d.Closing ∨ valid d.sock.desc = true ∧ d.sock.state ≠ .closed ∧ ∃ t, .closeBegin ∈ d.threads t := by
  rcases step_keeps hd ht (by simp) with hkept | ⟨turn, htakes⟩
  · rcases step_sock hd with hsock | ⟨u, f, turn, htakes⟩
    · rw [hsock]
      exact .inr ⟨hvalid, hs, t, hkept⟩
    · rcases desc_cases (h.held hvalid) htakes with hdesc | ⟨rfl, -⟩
      · rw [← hdesc] at hvalid
        by_cases hs' : d.sock.state = .closed
        · exact .inl (live_step h hd hvalid hs')
        · exact .inr ⟨hvalid, hs', t, hkept⟩
      · exact (hs (h.closing u _ htakes.mem trivial).1).elim
  · exact .inl ((takes_closeBegin htakes).2.2 hs hvalid)

theorem owed_step : ErrorsClosed d.log ∨ d.Closing ∨
    valid d.sock.desc = true ∧ d.sock.state ≠ .closed ∧ ∃ t, .closeBegin ∈ d.threads t := by
  obtain ⟨notes, hlog, -, hfails⟩ := step_notes hd
  by_cases hnew : ∃ n ∈ notes, n.Fails = true
  · obtain ⟨n, hn, hf⟩ := hnew
    obtain ⟨hrefused, htakes⟩ := hfails n hn hf
    have hvalid := hok.1 hrefused
    obtain ⟨t, f, turn, ⟨k, rest, ha, hst, hturn, heq⟩, hnote⟩ :=
      htakes.resolve_right fun hdef => hdef (h.held hvalid).deferred
    obtain ⟨hpush, hstate, hdesc⟩ := (Socket.executed_tears hturn).fails n hnote hf
    have hvalid' : valid d.sock.desc = true := by
      rw [heq]
      exact (congrArg valid hdesc).trans hvalid
    by_cases hs : d.sock.state = .closed
    · exact .inr (.inl (live_step h hd hvalid' hs))
    · exact .inr (.inr ⟨hvalid', hs, t, heq ▸ mem_apply_push hpush⟩)
  · have hquiet : ∀ n ∈ notes, n.Fails = false := fun n hn => by
      by_contra hf
      exact hnew ⟨n, hn, by simpa using hf⟩
    rcases h.owed with hclosed | hclosing | ⟨hvalid, hs, t, ht⟩
    · exact .inl (hlog ▸ hclosed.append hquiet)
    · rcases closing_kept hd hclosing with hclosing | ⟨t, turn, htakes⟩
      · exact .inr (.inl hclosing)
      · exact .inl ((takes_closeDesc htakes).2 ▸ errorsClosed_close _)
    · exact .inr (pending_step h hd hvalid hs ht)

theorem step_torn : d.Torn where
  layered := step_layered h.layered hd
  once := step_once h.once hok hd
  held := held_step h hok hd
  closing := closing_step h hok hd
  alone := alone_step h hd
  closed := closed_step h hok hd
  live := live_step h hd
  owed := owed_step h hok hd

end Step

/-- In every run in which `connect` is called at most once, on a socket that has had no
descriptor, `open` is stored over `connecting` only, and nothing is refused but to a socket
that holds a descriptor: 'close' is emitted at most once, and when no thread is inside an
operation every 'error' has been followed by it. -/
theorem error_then_close {c d : Conn} (hc : Initial c) {as : List ConnLabel}
    (hok : Along step KeepsDescriptor c as) (hd : run step c as = some d) :
    d.log.count (.emitted .close) ≤ 1 ∧ ((∀ t, d.threads t = []) → ErrorsClosed d.log) := by
  have hstart : c.Torn := by
    have hnone : ErrorsClosed c.log := by
      cases hc <;> simp [ErrorsClosed, create, accepted]
    have hidle : c.NoConnect := by
      cases hc <;> constructor <;> simp [create, accepted, EventLoop.watch, EventLoop.interrupt, EventLoop.setFd,
        EventLoop.setWatch]
    refine ⟨initial_layered hc, ⟨?_, ?_, fun _ => hidle⟩, fun _ => hidle, ?_, ?_, ?_, ?_, .inl hnone⟩
    · simp [hidle.resolving, hidle.deferred]
    · exact fun t f hf hs => (hidle.starting t f hf hs).elim
    all_goals cases hc <;> simp [create, accepted, invalidHandle, valid]
  have htorn := (throughout_of_along (fun _ _ _ => step_torn) hstart hok).last hd
  refine ⟨?_, fun hidle => ?_⟩
  · by_cases hm : .emitted .close ∈ d.log
    · exact Nat.le_of_eq (htorn.closed hm).2.2
    · rw [List.count_eq_zero.mpr hm]
      exact Nat.zero_le 1
  · refine htorn.owed.resolve_right ?_
    simp [Closing, hidle]

/-- The connection breaks while `write` sends. -/
def resetRun : List ConnLabel :=
  dial 5 ++ [.call 0 (.write [1]), .turn 0 .none, .turn 0 (.failed ⟨104⟩), .ret 0, .turn 0 .none,
    .turn 0 .none, .turn 0 .none, .ret 0, .turn 0 .none, .turn 0 .none]

theorem resetRun_closed :
    ∃ d, run step (create 3) resetRun = some d ∧ (∀ t, d.threads t = []) ∧
      .emitted (.error (.system "send" ⟨104⟩)) ∈ d.log ∧ d.log.count (.emitted .close) ≤ 1 ∧
      ErrorsClosed d.log := by
  have hfacts : (run step (create 3) resetRun).map (fun d =>
      decide (.emitted (.error (.system "send" ⟨104⟩)) ∈ d.log)) = some true := by
    decide
  have hidle : ∀ t, (run step (create 3) resetRun).map (·.threads t) = some []
    | 0 => by decide
    | _ + 1 => rfl
  obtain ⟨d, hd, hfacts⟩ := Option.map_eq_some_iff.mp hfacts
  rw [hd] at hidle
  have hidle : ∀ t, d.threads t = [] := fun t => Option.some.inj (hidle t)
  obtain ⟨hcount, hclosed⟩ := error_then_close (.created 3) (by decide) hd
  exact ⟨d, hd, hidle, of_decide_eq_true hfacts, hcount, hclosed hidle⟩

/-- The host is not found. -/
def notFound : List ConnLabel := [.call 0 .connect, .resolved [], .deferred, .ret 0, .turn 0 .none]

/-- The run ends with an 'error' and no 'close'. -/
theorem notFound_not_closed :
    ∃ d, run step (create 3) notFound = some d ∧ (∀ t, d.threads t = []) ∧ ¬ ErrorsClosed d.log := by
  have hlog : (run step (create 3) notFound).map (·.log) =
      some [.emitted (.error (.text "ENOTFOUND: getaddrinfo returned no results")), .called .connect] := by
    decide
  have hidle : ∀ t, (run step (create 3) notFound).map (·.threads t) = some []
    | 0 => by decide
    | _ + 1 => rfl
  obtain ⟨d, hd, hlog⟩ := Option.map_eq_some_iff.mp hlog
  rw [hd] at hidle
  refine ⟨d, hd, fun t => Option.some.inj (hidle t), fun hclosed => ?_⟩
  cases hclosed [] _ _ hlog

end Conn
end CxNetworking.Tcp
