import CxNetworking.Lib.Execution
import CxNetworking.Tcp.Threads

/-! Backpressure with several writers. The decision that the buffer is drained is taken
under the socket's lock and the interest is lowered after it; what a writer raises in
between is undone. -/
namespace CxNetworking.Tcp
open CxNetworking.Core Execution

/-- The loop thread has decided that the buffer is drained and will lower the interest. -/
def Frame.Lowers : Frame → Bool
  | .lowerDrained _ => true
  | _ => false

namespace Conn

def writeInterest (c : Conn) : Bool := c.loop.watches[c.sock.desc]?.any fun e => e.events.has .write

/-- Some thread will raise the interest or close the socket. -/
def Repaired (c : Conn) : Prop := ∃ t, ∃ f ∈ c.threads t, f.Repairs

structure Backed (c : Conn) : Prop where
  resting : ∀ t, ∀ f ∈ (c.threads t).tail, f.Resting
  foreign : ∀ t, t ≠ loopThread → ∀ f ∈ c.threads t, f.Foreign
  watching : .watchConnect ∈ c.threads loopThread → c.sock.state ≠ .open
  watched : c.sock.state = .open ∨ c.sock.state = .connecting →
    (c.loop.watches[c.sock.desc]?).isSome = true ∨ .watchConnect ∈ c.threads loopThread
  raised : c.sock.state = .open → c.sock.backlog = true → c.writeInterest = true ∨ c.Repaired
  lowering : ∀ r, .lowerDrained r ∈ c.threads loopThread → c.sock.state = .open → c.sock.backlog = true → c.Repaired

/-- The turns that do not run into another thread's: no interest is raised while the
loop thread is about to lower it for a drained buffer, `open` is stored over `connecting`
only, and `close_with` goes on with a socket that is still closed. -/
def KeepsInterest (c : Conn) : ConnLabel → Prop
  | .turn t _ =>
    ((c.threads t).head? = some .raise → c.sock.state = .open →
      (c.threads loopThread).head?.any Frame.Lowers = false) ∧
    ((c.threads t).head? = some .setOpen → c.sock.state = .connecting) ∧
    ((c.threads t).head? = some .closeUnwatch ∨ (c.threads t).head? = some .closeDesc → c.sock.state = .closed)
  | .call _ _ | .ret _ | .io _ _ | .resolved _ | .deferred => True

instance (c : Conn) (a : ConnLabel) : Decidable (c.KeepsInterest a) :=
  match a with
  | .turn _ _ => inferInstanceAs (Decidable ((_ → _ → _) ∧ (_ → _) ∧ (_ → _)))
  | .call _ _ | .ret _ | .io _ _ | .resolved _ | .deferred => isTrue trivial

section Turn

variable {c : Conn} {t : Nat} {f : Frame} {rest : List Frame} {k : Kernel} {turn : Turn Unit (List SocketAddress)}

theorem repaired_apply (hst : c.threads t = f :: rest) (h : c.Repaired) (hf : ¬ f.Repairs) :
    (c.apply t rest turn).Repaired := by
  obtain ⟨u, g, hg, hrep⟩ := h
  exact ⟨u, g, mem_apply_of_ne hst hg fun hgf => hf (hgf ▸ hrep), hrep⟩

theorem writeInterest_raise {c d : Conn} (hdesc : d.sock.desc = c.sock.desc)
    (hloop : d.loop = c.loop.modify c.sock.desc (Interest.read ||| Interest.write))
    (hwatched : (c.loop.watches[c.sock.desc]?).isSome = true) : d.writeInterest = true := by
  obtain ⟨e, he⟩ := Option.isSome_iff_exists.mp hwatched
  simp only [writeInterest, hdesc, hloop, EventLoop.watches_modify, he, if_true, Option.map_some, Option.any_some]
  decide

theorem raise_turn (h : Socket.Executed () t c.loop c.sock .raise k turn) :
    turn.loop = c.loop.modify c.sock.desc (Interest.read ||| Interest.write) ∧ turn.obj.desc = c.sock.desc ∧
      turn.obj.state = c.sock.state := by
  cases h
  exact ⟨rfl, rfl, rfl⟩

theorem eq_loopThread (h : c.Backed) (hmem : f ∈ c.threads t) (hf : ¬ f.Foreign) : t = loopThread := by
  by_contra ht
  exact hf (h.foreign t ht f hmem)

/-- The registration is lost only when the socket is closed. -/
theorem watched_turn (h : c.Backed) (hok : c.KeepsInterest (.turn t k)) (hst : c.threads t = f :: rest)
    (hturn : Socket.Executed () t c.loop c.sock f k turn)
    (hstate : c.sock.state = .open ∨ c.sock.state = .connecting) :
    (turn.loop.watches[turn.obj.desc]?).isSome = true ∨
      .watchConnect ∈ (c.apply t rest turn).threads loopThread := by
  have hmem : f ∈ c.threads t := by simp [hst]
  have hopen : c.sock.state ≠ .closed := by rcases hstate with hs | hs <;> simp [hs]
  by_cases hf : f = .watchConnect
  · subst hf
    cases hturn
    simp [EventLoop.watches_watch]
  have hkeep : .watchConnect ∈ c.threads loopThread → .watchConnect ∈ (c.apply t rest turn).threads loopThread :=
    fun hw => mem_apply_of_ne hst hw (Ne.symm hf)
  cases Socket.executed_registration hturn with
  | kept hdesc hloop =>
      rw [hloop, hdesc]
      exact (h.watched hstate).imp_right hkeep
  | raised hdesc hloop | lowered _ hdesc hloop =>
      rw [hloop, hdesc]
      refine (h.watched hstate).imp (fun hw => ?_) hkeep
      simpa only [EventLoop.watches_modify, if_true, Option.isSome_map] using hw
  | unwatched | closed => exact (hopen (hok.2.2 (by simp [hst]))).elim
  | stored _ _ hpush => exact .inr (eq_loopThread h hmem id ▸ mem_apply_push (by simp [hpush]))
  | watched => exact (hf rfl).elim

/-- An open socket's backlog stays cared for. -/
theorem raised_turn (h : c.Backed) (hok : c.KeepsInterest (.turn t k)) (hst : c.threads t = f :: rest)
    (hturn : Socket.Executed () t c.loop c.sock f k turn) (hopen : turn.obj.state = .open)
    (hback : turn.obj.backlog = true) :
    (c.apply t rest turn).writeInterest = true ∨ (c.apply t rest turn).Repaired := by
  have haff := Socket.executed_affects hturn
  have hmem : f ∈ c.threads t := by simp [hst]
  rcases haff.backlog hopen hback with ⟨hold, hback, hrep⟩ | ⟨g, hg, hrep⟩ | rfl
  · rcases h.raised hold hback with hw | hr
    · cases Socket.executed_registration hturn with
      | kept hdesc hloop =>
          refine .inl ?_
          simpa only [writeInterest, apply, hloop, hdesc] using hw
      | raised => exact (hrep trivial).elim
      | lowered hf =>
          rcases hf with rfl | ⟨r, rfl⟩
          · exact (hrep trivial).elim
          · exact .inr (repaired_apply hst (h.lowering r (eq_loopThread h hmem id ▸ hmem) hold hback) hrep)
      | unwatched | closed => cases hold.symm.trans (hok.2.2 (by simp [hst]))
      | stored hobj => simp [hobj] at hopen
      | watched => exact (h.watching (eq_loopThread h hmem id ▸ hmem) hold).elim
    · exact .inr (repaired_apply hst hr hrep)
  · exact .inr ⟨t, g, mem_apply_push hg, hrep⟩
  · obtain ⟨hraise, hdesc, hstate⟩ := raise_turn hturn
    have hold := hstate.symm.trans hopen
    refine .inl (writeInterest_raise hdesc hraise ?_)
    exact (h.watched (.inl hold)).resolve_right fun hw => h.watching hw hold

/-- While the loop thread is about to watch a new descriptor the socket is not open. -/
theorem watching_turn (h : c.Backed) (hst : c.threads t = f :: rest)
    (hturn : Socket.Executed () t c.loop c.sock f k turn)
    (hw : .watchConnect ∈ (c.apply t rest turn).threads loopThread) : turn.obj.state ≠ .open := by
  have haff := Socket.executed_affects hturn
  have hmem : f ∈ c.threads t := by simp [hst]
  intro ho
  rcases mem_apply hw with ⟨-, hw⟩ | ⟨-, hw⟩ | ⟨ht, hw⟩
  · cases (haff.watching hw).symm.trans ho
  · exact h.resting t .watchConnect (by simp [hst, hw])
  · rcases haff.state with hs | rfl | ⟨-, hs⟩ | ⟨d, addr, rfl, -⟩
    · exact h.watching hw (hs.symm.trans ho)
    · exact ht (eq_loopThread h hmem id).symm
    · cases hs.symm.trans ho
    · exact ht (eq_loopThread h hmem id).symm

/-- A backlog that the loop thread's lowering would strand is cared for by a writer. -/
theorem lowering_turn (h : c.Backed) (hok : c.KeepsInterest (.turn t k)) (hst : c.threads t = f :: rest)
    (hturn : Socket.Executed () t c.loop c.sock f k turn) {r : Ready}
    (hr : .lowerDrained r ∈ (c.apply t rest turn).threads loopThread) (hopen : turn.obj.state = .open)
    (hback : turn.obj.backlog = true) : (c.apply t rest turn).Repaired := by
  have haff := Socket.executed_affects hturn
  rcases mem_apply hr with ⟨-, hr⟩ | ⟨-, hr⟩ | ⟨-, hr⟩
  · cases hback.symm.trans (haff.lowering r hr)
  · exact (h.resting t (.lowerDrained r) (by simp [hst, hr])).elim
  · rcases haff.backlog hopen hback with ⟨hold, hback, hrep⟩ | ⟨g, hg, hrep⟩ | rfl
    · exact repaired_apply hst (h.lowering r hr hold hback) hrep
    · exact ⟨t, g, mem_apply_push hg, hrep⟩
    · have hhead := head_of_not_resting (h.resting loopThread) hr id
      have hlow := hok.1 (by simp [hst]) ((raise_turn hturn).2.2.symm.trans hopen)
      simp [hhead, Frame.Lowers] at hlow

theorem turn_backed (h : c.Backed) (hok : c.KeepsInterest (.turn t k)) (hst : c.threads t = f :: rest)
    (hturn : Socket.Executed () t c.loop c.sock f k turn) (hd : c.step (.turn t k) = some (c.apply t rest turn)) :
    (c.apply t rest turn).Backed := by
  have haff := Socket.executed_affects hturn
  have hmem : f ∈ c.threads t := by simp [hst]
  refine ⟨step_resting h.resting hd, step_foreign h.foreign hd, watching_turn h hst hturn, ?_,
    raised_turn h hok hst hturn, fun r hr => lowering_turn h hok hst hturn hr⟩
  intro hstate
  rcases haff.state with hs | rfl | ⟨-, hs⟩ | ⟨d, addr, rfl, -⟩
  · exact watched_turn h hok hst hturn (hs ▸ hstate)
  · exact watched_turn h hok hst hturn (.inr (hok.2.1 (by simp [hst])))
  · rcases hstate with hstate | hstate <;> cases hs.symm.trans hstate
  · cases hturn
    exact .inr (eq_loopThread h hmem id ▸ mem_apply_push (by simp [Socket.storeConnect]))

end Turn

section Step

variable {c d : Conn} {a : ConnLabel}

/-- Only a turn touches the registrations. -/
theorem step_watches (hd : c.step a = some d) (ha : ∀ t k, a ≠ .turn t k) : d.loop.watches = c.loop.watches := by
  rcases step_spec hd with ⟨t, call, -, -, rfl⟩ | ⟨t, rest, -, -, rfl⟩ | ⟨t, k, f, rest, turn, hturn, -⟩ |
    ⟨h, r, -, -, -, rfl⟩ | ⟨addrs, -, rfl⟩ | ⟨addrs, deferred, -, -, -, rfl⟩
  · rfl
  · rfl
  · exact (ha t k hturn).elim
  · rfl
  · rfl
  · cases addrs <;> rfl

theorem enter_backed (h : c.Backed) (henter : c.Enters a d) (hd : c.step a = some d) : d.Backed := by
  have hwatches := step_watches hd henter.label
  have hrep : c.Repaired → d.Repaired := by
    rintro ⟨u, f, hf, hrep⟩
    exact ⟨u, f, henter.keeps u f hf (by rintro rfl; exact hrep), hrep⟩
  refine ⟨step_resting h.resting hd, step_foreign h.foreign hd, ?_, ?_, ?_, ?_⟩
  · intro hw
    rw [henter.sock]
    exact h.watching ((henter.enters _ _ hw).resolve_right id)
  · rw [henter.sock, hwatches]
    intro hstate
    exact (h.watched hstate).imp_right fun hw => henter.keeps _ _ hw (by simp)
  · rw [henter.sock]
    intro hopen hback
    refine (h.raised hopen hback).imp (fun hw => ?_) hrep
    simpa only [writeInterest, henter.sock, hwatches] using hw
  · rw [henter.sock]
    intro r hr hopen hback
    exact hrep (h.lowering r ((henter.enters _ _ hr).resolve_right id) hopen hback)

theorem step_backed (h : c.Backed) (hok : c.KeepsInterest a) (hd : c.step a = some d) : d.Backed := by
  rcases step_kinds hd with ⟨t, f, turn, k, rest, rfl, hst, hturn, rfl⟩ | henter
  · exact turn_backed h hok hst hturn hd
  · exact enter_backed h henter hd

end Step

/-- In every run in which no interest is raised between the decision that the buffer is
drained and the lowering that follows it, `open` is never stored over another state than
`connecting`, and `close_with` finishes before the socket is connected anew: whenever no
thread is inside an operation, an open socket with unsent bytes is watched for writing. -/
theorem backlog_watched {c : Conn} (hc : Initial c) {as : List ConnLabel} (hok : Along step KeepsInterest c as) :
    Throughout step (fun d => (∀ t, d.threads t = []) → d.sock.state = .open → d.sock.backlog = true →
      d.writeInterest = true) c as := by
  have hstart : c.Backed := by
    cases hc <;> constructor <;> simp_all [create, accepted, EventLoop.watches_watch, Socket.backlog]
  refine (throughout_of_along (I := Backed) (fun _ _ _ => step_backed) hstart hok).mono ?_
  intro d hd hidle hopen hback
  refine (hd.raised hopen hback).resolve_right ?_
  rintro ⟨t, f, hf, -⟩
  simp [hidle t] at hf

/-- A thread writes more than the kernel takes; the loop thread drains the buffer, and a
second write is refused by the kernel before, or after, the interest is lowered. -/
def writtenOut : List ConnLabel :=
  [.call 1 (.write [1, 2]), .turn 1 .none, .turn 1 (.failed .again), .turn 1 .none, .io 5 { writable := true },
    .turn 0 .none, .turn 0 .none, .turn 0 (.sent 2), .call 1 (.write [3]), .turn 1 .none, .turn 1 (.failed .again)]

def raisedAfter : List ConnLabel := writtenOut ++ [.turn 0 .none, .turn 1 .none, .ret 0, .turn 0 .none]

def raisedBefore : List ConnLabel := writtenOut ++ [.turn 1 .none, .turn 0 .none, .ret 0, .turn 0 .none]

theorem raisedAfter_watched :
    (run step (accepted 3 5 { address := "" }) raisedAfter).isSome ∧
      Throughout step (fun d => (∀ t, d.threads t = []) → d.sock.state = .open → d.sock.backlog = true →
        d.writeInterest = true) (accepted 3 5 { address := "" }) raisedAfter :=
  ⟨by decide, backlog_watched (.accepted 3 5 _ rfl) (by decide)⟩

/-- The raised interest is undone: a byte is left in the buffer of an idle, open socket
that is watched for reading only. -/
theorem raisedBefore_stalls :
    ∃ d, run step (accepted 3 5 { address := "" }) raisedBefore = some d ∧ (∀ t, d.threads t = []) ∧
      d.sock.state = .open ∧ d.sock.backlog = true ∧ d.writeInterest = false := by
  have hend : (run step (accepted 3 5 { address := "" }) raisedBefore).map
      (fun d => (d.sock.state, d.sock.backlog, d.writeInterest)) = some (.open, true, false) := by
    decide
  have hidle : ∀ t, (run step (accepted 3 5 { address := "" }) raisedBefore).map (·.threads t) = some []
    | 0 => by decide
    | 1 => by decide
    | _ + 2 => rfl
  obtain ⟨d, hd, hend⟩ := Option.map_eq_some_iff.mp hend
  rw [hd] at hidle
  exact ⟨d, hd, fun t => Option.some.inj (hidle t), by simp_all⟩

end Conn
end CxNetworking.Tcp
