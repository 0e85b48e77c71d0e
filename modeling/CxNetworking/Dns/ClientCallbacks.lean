import CxNetworking.Core.SocketOps
import CxNetworking.Dns.Client
import CxNetworking.Lib.History
import Mathlib.Data.List.Perm.Basic

/-! What becomes of the handlers passed to `dns::client::query`: none is called twice,
whatever ids are drawn, none is lost as long as no query draws an id that is outstanding,
and whoever knows an outstanding id can have its handler called. -/
namespace CxNetworking.Dns
open CxNetworking.Core Execution

def invokedHandlers : List ClientNote → List Nat
  | [] => []
  | .invoked n _ :: earlier => n :: invokedHandlers earlier
  | _ :: earlier => invokedHandlers earlier

/-- The handlers that a `query` with an invalid name still has to call. -/
def owedHandlers : List Resume → List Nat
  | [] => []
  | .answerInvalid n :: stack => n :: owedHandlers stack
  | _ :: stack => owedHandlers stack

namespace Client

def settled (c : Client) : List Nat := invokedHandlers c.log ++ owedHandlers c.stack

/-- Every handler is in one place: called, owed, or in one entry of `pending_`. -/
structure Single (c : Client) : Prop where
  nodup : c.settled.Nodup
  issued : ∀ n ∈ c.settled, n < c.queries
  pending : ∀ (id : UInt16) (e : Pending), c.pending[id]? = some e → e.handler < c.queries ∧ e.handler ∉ c.settled
  apart : ∀ (id id' : UInt16) (e e' : Pending), c.pending[id]? = some e → c.pending[id']? = some e' →
    e.handler = e'.handler → id = id'

theorem create_single (wakeFd : Handle) : (create wakeFd).Single where
  nodup := .nil
  issued := by simp [create, settled, invokedHandlers, owedHandlers]
  pending := by simp [create]
  apart := by simp [create]

theorem Single.same {c d : Client} (h : c.Single) (hsettled : d.settled = c.settled)
    (hqueries : d.queries = c.queries) (hpending : d.pending = c.pending) : d.Single where
  nodup := hsettled ▸ h.nodup
  issued := by rw [hsettled, hqueries]; exact h.issued
  pending := by rw [hsettled, hqueries, hpending]; exact h.pending
  apart := by rw [hpending]; exact h.apart

theorem resolve_single {c : Client} (h : c.Single) (id : UInt16) (answer : Option Message) :
    (c.resolve id answer).Single := by
  rcases c.resolve_cases id answer with ⟨-, heq⟩ | ⟨entry, hentry, heq⟩
  · rwa [heq]
  · obtain ⟨hlt, hnew⟩ := h.pending id entry hentry
    rw [heq]
    have hkept : ∀ (id' : UInt16) (e : Pending), (c.pending.erase id)[id']? = some e →
        id' ≠ id ∧ c.pending[id']? = some e := by
      intro id' e he
      simp only [Std.ExtTreeMap.getElem?_erase, Std.compare_eq_iff_eq, Option.ite_none_left_eq_some] at he
      exact ⟨Ne.symm he.1, he.2⟩
    refine ⟨List.nodup_cons.mpr ⟨hnew, h.nodup⟩, ?_, ?_, ?_⟩
    · intro n hn
      rcases List.mem_cons.mp hn with rfl | hn
      · exact hlt
      · exact h.issued n hn
    · intro id' e he
      obtain ⟨hne, he⟩ := hkept id' e he
      refine ⟨(h.pending id' e he).1, fun hmem => ?_⟩
      rcases List.mem_cons.mp hmem with hsame | hmem
      · exact hne (h.apart id' id e entry he hentry hsame)
      · exact (h.pending id' e he).2 hmem
    · intro id₁ id₂ e₁ e₂ h₁ h₂
      exact h.apart id₁ id₂ e₁ e₂ (hkept id₁ e₁ h₁).2 (hkept id₂ e₂ h₂).2

theorem enter_single {c : Client} (h : c.Single) {id : UInt16} {timer : Nat} {d : Client}
    (hsettled : d.settled = c.settled) (hqueries : d.queries = c.queries + 1)
    (hpending : d.pending = c.pending.insertIfNew id { handler := c.queries, timer }) : d.Single := by
  have hentry : ∀ (id' : UInt16) (e : Pending), d.pending[id']? = some e →
      c.pending[id']? = some e ∨ id = id' ∧ e.handler = c.queries := by
    intro id' e he
    simp only [hpending, Std.ExtTreeMap.getElem?_insertIfNew, Std.compare_eq_iff_eq] at he
    split at he
    · next hnew =>
        cases he
        exact .inr ⟨hnew.1, rfl⟩
    · exact .inl he
  refine ⟨hsettled ▸ h.nodup, ?_, ?_, ?_⟩
  · rw [hsettled, hqueries]
    exact fun n hn => Nat.lt_succ_of_lt (h.issued n hn)
  · rw [hsettled, hqueries]
    intro id' e he
    rcases hentry id' e he with he | ⟨-, hn⟩
    · exact (h.pending id' e he).imp_left Nat.lt_succ_of_lt
    · rw [hn]
      exact ⟨Nat.lt_succ_self _, fun hmem => Nat.lt_irrefl _ (h.issued _ hmem)⟩
  · intro id₁ id₂ e₁ e₂ h₁ h₂ hsame
    rcases hentry id₁ e₁ h₁ with h₁ | ⟨rfl, hn₁⟩ <;> rcases hentry id₂ e₂ h₂ with h₂ | ⟨rfl, hn₂⟩
    · exact h.apart id₁ id₂ e₁ e₂ h₁ h₂ hsame
    · have := (h.pending id₁ e₁ h₁).1
      omega
    · have := (h.pending id₂ e₂ h₂).1
      omega
    · rfl

theorem submit_spec (c : Client) (handler : Nat) (id : UInt16) (wire : Bytes) (now : Int) (failure : Option Bytes) :
    ∃ note d, c.submit handler id wire now failure = d ∧ (∀ n id, note ≠ .queried n id) ∧
      d.log = note :: c.log ∧ invokedHandlers d.log = invokedHandlers c.log ∧
      owedHandlers d.stack = owedHandlers c.stack ∧ d.queries = c.queries ∧
      d.pending = c.pending.insertIfNew id { handler, timer := c.loop.nextTimerId } := by
  cases failure with
  | none => exact ⟨.sent wire, _, rfl, by simp, rfl, rfl, rfl, rfl, rfl⟩
  | some text => exact ⟨.errored text, _, rfl, by simp, rfl, rfl, rfl, rfl, rfl⟩

theorem query_single {c : Client} (h : c.Single) (name : Bytes) (type id : UInt16) (now : Int)
    (failure : Option Bytes) : (c.query name type id now failure).Single := by
  unfold query
  split
  · have hfresh : c.queries ∉ c.settled := fun hmem => Nat.lt_irrefl _ (h.issued _ hmem)
    have hperm : (invokedHandlers c.log ++ c.queries :: owedHandlers c.stack).Perm (c.queries :: c.settled) :=
      List.perm_middle
    have hmem : ∀ n, n ∈ invokedHandlers c.log ++ c.queries :: owedHandlers c.stack ↔
        n = c.queries ∨ n ∈ c.settled := fun n => hperm.mem_iff.trans List.mem_cons
    refine ⟨hperm.nodup_iff.mpr (List.nodup_cons.mpr ⟨hfresh, h.nodup⟩), ?_, ?_, h.apart⟩
    · intro n hn
      rcases (hmem n).mp hn with rfl | hn
      · exact Nat.lt_succ_self _
      · exact Nat.lt_succ_of_lt (h.issued n hn)
    · intro id' e he
      obtain ⟨hlt, hnew⟩ := h.pending id' e he
      refine ⟨Nat.lt_succ_of_lt hlt, fun hn => ?_⟩
      rcases (hmem _).mp hn with hn | hn
      · exact Nat.lt_irrefl _ (hn ▸ hlt)
      · exact hnew hn
  · next wire _ =>
      obtain ⟨note, d, hd, -, -, hinvoked, howed, hqueries, hpending⟩ :=
        submit_spec { c with queries := c.queries + 1, log := .queried c.queries id :: c.log } c.queries id wire now
          failure
      rw [hd]
      exact enter_single h (congrArg₂ (· ++ ·) hinvoked howed) hqueries hpending

theorem resume_single {c : Client} (h : c.Single) {frame : Resume} {stack : List Resume}
    (hstack : c.stack = frame :: stack) : ({ c with stack }.resume frame).Single := by
  cases frame with
  | leave => exact h.same (by simp [settled, resume, hstack, owedHandlers]) rfl rfl
  | answerInvalid n =>
      have hperm : c.settled.Perm (n :: (invokedHandlers c.log ++ owedHandlers stack)) := by
        simp only [settled, hstack, owedHandlers]
        exact List.perm_middle
      refine ⟨hperm.nodup_iff.mp h.nodup, fun m hm => h.issued m (hperm.mem_iff.mpr hm), ?_, h.apart⟩
      intro id e he
      exact (h.pending id e he).imp_right fun hnew hmem => hnew (hperm.mem_iff.mpr hmem)
  | resolveFailed id =>
      refine resolve_single ?_ id none
      exact h.same (by simp [settled, hstack, owedHandlers]) rfl rfl

theorem receive_single {c : Client} (h : c.Single) (datagram : Bytes) : (c.receive datagram).Single := by
  unfold receive
  split
  · exact h.same rfl rfl rfl
  · exact resolve_single h _ _

theorem step_single {c d : Client} {a : ClientLabel} (h : c.Single) (hd : c.step a = some d) : d.Single := by
  rcases step_spec hd with ⟨_, _, _, _, _, -, heq⟩ | ⟨datagram, -, heq⟩ | ⟨text, -, heq⟩ | ⟨now, -, heq⟩ |
    ⟨id, due, -, -, heq⟩ | ⟨frame, stack, -, hstack, heq⟩ | ⟨timeout, -, heq⟩ <;> rw [heq]
  · exact query_single h _ _ _ _ _
  · exact receive_single h datagram
  · exact h.same rfl rfl rfl
  · exact h.same rfl rfl rfl
  · refine resolve_single ?_ id none
    exact h.same rfl rfl rfl
  · exact resume_single h hstack
  · exact h.same rfl rfl rfl

/-- No run of the client calls a handler twice. -/
theorem handlers_called_once (wakeFd : Handle) {as : List ClientLabel} {c : Client}
    (h : run step (create wakeFd) as = some c) : (invokedHandlers c.log).Nodup :=
  (List.nodup_append.mp (run_invariant (fun _ _ _ => step_single) (create_single wakeFd) h).nodup).1

/-- A query for `a` is sent, one for the invalid name `.` is answered at once, and the
reply to the first one arrives twice. -/
def duplicateRun : List ClientLabel :=
  [.query [97] 1 7 0 none, .query [46] 1 8 0 none, .ret, .ret, .datagram (ascii "\x00\x07" ++ List.replicate 10 0),
    .ret, .datagram (ascii "\x00\x07" ++ List.replicate 10 0)]

theorem duplicateRun_called_once :
    ∃ c, run step (create 3) duplicateRun = some c ∧ invokedHandlers c.log = [0, 1] ∧
      (invokedHandlers c.log).Nodup := by
  have hlog : (run step (create 3) duplicateRun).map (fun c => invokedHandlers c.log) = some [0, 1] := by
    decide +kernel
  obtain ⟨c, hc, hlog⟩ := Option.map_eq_some_iff.mp hlog
  exact ⟨c, hc, hlog, handlers_called_once 3 hc⟩

/-! No handler is lost. -/

/-- The handler of query `n` was called, or is in `pending_` under the id drawn for it. -/
def Held (c : Client) (n : Nat) (id : UInt16) : Prop :=
  n ∈ invokedHandlers c.log ∨ ∃ e : Pending, c.pending[id]? = some e ∧ e.handler = n

/-- A query that gets as far as `pending_` draws an id that is not outstanding. -/
def FreshId (c : Client) : ClientLabel → Prop
  | .query name type id _ _ => (request name type id).serialize ≠ none → c.pending[id]? = none
  | _ => True

instance (c : Client) (a : ClientLabel) : Decidable (c.FreshId a) :=
  match a with
  | .query _ _ _ _ _ => inferInstanceAs (Decidable (_ → _))
  | .datagram _ | .peerError _ | .collect _ | .timer | .ret | .setTimeout _ => isTrue trivial

/-- The handlers not held are those that a `query` with an invalid name has yet to call. -/
def NoneLost (c : Client) : Prop :=
  ∀ n id, .queried n id ∈ c.log → c.Held n id ∨ n ∈ owedHandlers c.stack

theorem NoneLost.same {c d : Client} (h : c.NoneLost) (hlog : ∀ n id, .queried n id ∈ d.log → .queried n id ∈ c.log)
    (hinvoked : invokedHandlers d.log = invokedHandlers c.log) (howed : owedHandlers d.stack = owedHandlers c.stack)
    (hpending : d.pending = c.pending) : d.NoneLost := by
  intro n id hn
  rw [Held, hinvoked, howed, hpending]
  exact h n id (hlog n id hn)

theorem resolve_noneLost {c : Client} (h : c.NoneLost) (id : UInt16) (answer : Option Message) :
    (c.resolve id answer).NoneLost := by
  rcases c.resolve_cases id answer with ⟨-, heq⟩ | ⟨entry, hentry, heq⟩
  · rwa [heq]
  · rw [heq]
    intro n id' hn
    have hn : .queried n id' ∈ c.log := by simpa using hn
    rcases h n id' hn with (hcalled | ⟨e, he, hsame⟩) | howed
    · exact .inl (.inl (List.mem_cons_of_mem _ hcalled))
    · by_cases hid : id = id'
      · subst hid
        cases hentry.symm.trans he
        exact .inl (.inl (hsame ▸ List.mem_cons_self))
      · refine .inl (.inr ⟨e, ?_, hsame⟩)
        simpa [Std.ExtTreeMap.getElem?_erase, hid] using he
    · exact .inr howed

theorem emplace_free {pending : Std.ExtTreeMap UInt16 Pending} {id : UInt16} (hfree : pending[id]? = none)
    (entry : Pending) (id' : UInt16) :
    (pending.insertIfNew id entry)[id']? = if id = id' then some entry else pending[id']? := by
  have hmem : id ∉ pending := by simp [Std.ExtTreeMap.mem_iff_isSome_getElem?, hfree]
  simp only [Std.ExtTreeMap.getElem?_insertIfNew, Std.compare_eq_iff_eq, hmem, not_false_eq_true, and_true]

theorem query_noneLost {c : Client} (h : c.NoneLost) {name : Bytes} {type id : UInt16} {now : Int}
    {failure : Option Bytes} (hok : c.FreshId (.query name type id now failure)) :
    (c.query name type id now failure).NoneLost := by
  unfold query
  split
  · intro n id' hn
    simp only [List.mem_cons, ClientNote.queried.injEq, reduceCtorEq, false_or] at hn
    rcases hn with ⟨rfl, -⟩ | hn
    · exact .inr List.mem_cons_self
    · exact (h n id' hn).imp_right (List.mem_cons_of_mem _)
  · next wire hwire =>
      have hfree : c.pending[id]? = none := hok (by simp [hwire])
      obtain ⟨note, d, hd, hnote, hlog, hinvoked, howed, -, hpending⟩ :=
        submit_spec { c with queries := c.queries + 1, log := .queried c.queries id :: c.log } c.queries id wire now
          failure
      rw [hd]
      intro n id' hn
      rw [Held, hinvoked, howed, hpending]
      simp only [emplace_free hfree]
      simp only [hlog, List.mem_cons, ClientNote.queried.injEq, (hnote n id').symm, false_or] at hn
      rcases hn with ⟨rfl, rfl⟩ | hn
      · exact .inl (.inr ⟨_, if_pos rfl, rfl⟩)
      · rcases h n id' hn with (hcalled | ⟨e, he, hsame⟩) | howed
        · exact .inl (.inl hcalled)
        · have hne : id ≠ id' := by
            rintro rfl
            simp [hfree] at he
          exact .inl (.inr ⟨e, (if_neg hne).trans he, hsame⟩)
        · exact .inr howed

theorem resume_noneLost {c : Client} (h : c.NoneLost) {frame : Resume} {stack : List Resume}
    (hstack : c.stack = frame :: stack) : ({ c with stack }.resume frame).NoneLost := by
  cases frame with
  | leave => exact h.same (fun _ _ hn => hn) rfl (by simp [resume, hstack, owedHandlers]) rfl
  | answerInvalid m =>
      intro n id hn
      have hn : .queried n id ∈ c.log := by simpa [resume] using hn
      rcases h n id hn with (hcalled | hpending) | howed
      · exact .inl (.inl (List.mem_cons_of_mem _ hcalled))
      · exact .inl (.inr hpending)
      · rw [hstack] at howed
        rcases List.mem_cons.mp howed with rfl | howed
        · exact .inl (.inl List.mem_cons_self)
        · exact .inr howed
  | resolveFailed id =>
      refine resolve_noneLost ?_ id none
      exact h.same (fun _ _ hn => hn) rfl (by simp [hstack, owedHandlers]) rfl

theorem receive_noneLost {c : Client} (h : c.NoneLost) (datagram : Bytes) : (c.receive datagram).NoneLost := by
  unfold receive
  split
  · exact h.same (fun _ _ hn => by simpa using hn) rfl rfl rfl
  · exact resolve_noneLost h _ _

theorem step_noneLost {c d : Client} {a : ClientLabel} (h : c.NoneLost) (hok : c.FreshId a)
    (hd : c.step a = some d) : d.NoneLost := by
  rcases step_spec hd with ⟨_, _, _, _, _, rfl, heq⟩ | ⟨datagram, -, heq⟩ | ⟨text, -, heq⟩ | ⟨now, -, heq⟩ |
    ⟨id, due, -, -, heq⟩ | ⟨frame, stack, -, hstack, heq⟩ | ⟨timeout, -, heq⟩ <;> rw [heq]
  · exact query_noneLost h hok
  · exact receive_noneLost h datagram
  · exact h.same (fun _ _ hn => by simpa [peerError] using hn) rfl rfl rfl
  · exact h.same (fun _ _ hn => hn) rfl rfl rfl
  · refine resolve_noneLost ?_ id none
    exact h.same (fun _ _ hn => hn) rfl rfl rfl
  · exact resume_noneLost h hstack
  · exact h.same (fun _ _ hn => hn) rfl rfl rfl

/-- In every run whose queries draw ids that are not outstanding, whenever no call into
the client is in progress every handler was called or waits in `pending_` under the id
of its query. -/
theorem handlers_held (wakeFd : Handle) {as : List ClientLabel} (hok : Along step FreshId (create wakeFd) as) :
    Throughout step (fun c => c.stack = [] → ∀ n id, .queried n id ∈ c.log → c.Held n id) (create wakeFd) as := by
  refine (throughout_of_along (fun _ _ _ => step_noneLost) ?_ hok).mono ?_
  · exact fun n id hn => nomatch hn
  · intro c hc hstack n id hn
    exact (hc n id hn).resolve_right (by simp [hstack, owedHandlers])

theorem duplicateRun_held :
    (run step (create 3) duplicateRun).isSome ∧
      Throughout step (fun c => c.stack = [] → ∀ n id, .queried n id ∈ c.log → c.Held n id) (create 3) duplicateRun :=
  ⟨by decide +kernel, handlers_held 3 (by decide +kernel)⟩

/-- Two queries draw the same id, and both are sent. -/
def collisionRun : List ClientLabel := [.query [97] 1 7 0 none, .query [98] 1 7 0 none]

/-- The second handler is neither called nor in `pending_`. -/
theorem collisionRun_loses :
    ∃ c, run step (create 3) collisionRun = some c ∧ c.stack = [] ∧ .queried 1 7 ∈ c.log ∧ ¬ c.Held 1 7 := by
  have hfacts : (run step (create 3) collisionRun).map (fun c =>
      (c.stack, c.pending[(7 : UInt16)]?, invokedHandlers c.log, decide (.queried 1 7 ∈ c.log))) =
      some ([], some { handler := 0, timer := 1 }, [], true) := by
    decide +kernel
  obtain ⟨c, hc, hfacts⟩ := Option.map_eq_some_iff.mp hfacts
  simp only [Prod.mk.injEq, decide_eq_true_eq] at hfacts
  obtain ⟨hstack, hpending, hcalled, hqueried⟩ := hfacts
  refine ⟨c, hc, hstack, hqueried, ?_⟩
  rintro (hmem | ⟨e, he, hn⟩)
  · simp [hcalled] at hmem
  · cases hpending.symm.trans he
    cases hn

/-! Whose datagrams are believed. -/

/-- The listener that `wire_up` adds to the peer's 'message' event; it does not look at the
address the datagram came from. -/
def onMessage (c : Client) (datagram : Bytes) (_source : SocketAddress) : Client := c.receive datagram

/-- A datagram from another endpoint than the resolver's, or a message whose QR bit is clear. -/
def OffPath (resolver : SocketAddress) (datagram : Bytes) (source : SocketAddress) : Prop :=
  source ≠ resolver ∨ ∃ m, Message.parse datagram = some m ∧ m.header.response = false

/-- The datagram is no message, or one whose id is not outstanding. -/
def Unmatched (c : Client) (datagram : Bytes) : Prop :=
  ∀ m, Message.parse datagram = some m → c.pending[m.header.id]? = none

/-- No entry is removed and no handler is called. -/
def Unresolved (c d : Client) : Prop := d.pending = c.pending ∧ invokedHandlers d.log = invokedHandlers c.log

theorem resolve_unresolved_iff (c : Client) (id : UInt16) (answer : Option Message) :
    c.Unresolved (c.resolve id answer) ↔ c.pending[id]? = none := by
  rcases c.resolve_cases id answer with ⟨hnone, heq⟩ | ⟨entry, hentry, heq⟩ <;> rw [heq]
  · exact ⟨fun _ => hnone, fun _ => ⟨rfl, rfl⟩⟩
  · refine ⟨fun h => ?_, fun h => ?_⟩
    · exact (List.cons_ne_self _ _ h.2).elim
    · cases hentry.symm.trans h

theorem receive_unresolved_iff (c : Client) (datagram : Bytes) :
    c.Unresolved (c.receive datagram) ↔ c.Unmatched datagram := by
  unfold receive Unmatched
  cases hparse : Message.parse datagram with
  | none => exact ⟨fun _ m hm => (nomatch hm), fun _ => ⟨rfl, rfl⟩⟩
  | some parsed =>
      refine (resolve_unresolved_iff c _ _).trans ⟨fun h m hm => ?_, fun h => h parsed rfl⟩
      cases hm
      exact h

/-- In every state of every run, an off-path datagram resolves no query exactly if it
carries no outstanding id. -/
theorem off_path_unresolved_iff (wakeFd : Handle) (as : List ClientLabel) :
    Throughout step (fun c => ∀ resolver datagram source, OffPath resolver datagram source →
      (c.Unresolved (c.onMessage datagram source) ↔ c.Unmatched datagram)) (create wakeFd) as := by
  have hall : ∀ c : Client, ∀ resolver datagram source, OffPath resolver datagram source →
      (c.Unresolved (c.onMessage datagram source) ↔ c.Unmatched datagram) :=
    fun c _ datagram _ _ => receive_unresolved_iff c datagram
  exact throughout_of_along (fun _ _ d _ _ _ => hall d) (hall _) (Along.trivial _ as)

def oneQuery : List ClientLabel := [.query [97] 1 7 0 none]

/-- A header with the given id and a clear QR bit. -/
def forged (id : UInt8) : Bytes := [0, id] ++ List.replicate 10 0

theorem oneQuery_wrongGuess :
    ∃ c, run step (create 3) oneQuery = some c ∧
      c.Unresolved (c.onMessage (forged 8) { address := "6.6.6.6", port := 4000, family := 2 }) := by
  have hfacts : (run step (create 3) oneQuery).map (fun c =>
      (c.pending[(8 : UInt16)]?, (Message.parse (forged 8)).map (·.header.id))) = some (none, some 8) := by
    decide +kernel
  obtain ⟨c, hc, hfacts⟩ := Option.map_eq_some_iff.mp hfacts
  obtain ⟨hfree, hid⟩ := Prod.mk.inj hfacts
  obtain ⟨m, hm, hid⟩ := Option.map_eq_some_iff.mp hid
  refine ⟨c, hc, ((off_path_unresolved_iff 3 oneQuery).last hc { address := "1.1.1.1", port := 53, family := 2 } _ _
    (.inl (by decide))).mpr ?_⟩
  intro m' hm'
  cases hm.symm.trans hm'
  rw [hid]
  exact hfree

/-- With the right id, a request from anywhere is taken for the resolver's answer. -/
theorem oneQuery_forged :
    ∃ c, run step (create 3) oneQuery = some c ∧ c.stack = [] ∧ c.due = [] ∧
      OffPath { address := "1.1.1.1", port := 53, family := 2 } (forged 7)
        { address := "6.6.6.6", port := 4000, family := 2 } ∧
      (Message.parse (forged 7)).map (·.header.response) = some false ∧
      (c.pending[(7 : UInt16)]?).isSome = true ∧
      ((c.onMessage (forged 7) { address := "6.6.6.6", port := 4000, family := 2 }).pending[(7 : UInt16)]?) = none ∧
      invokedHandlers c.log = [] ∧
      invokedHandlers (c.onMessage (forged 7) { address := "6.6.6.6", port := 4000, family := 2 }).log = [0] := by
  have hfacts : (run step (create 3) oneQuery).map (fun c =>
      ((c.stack, c.due, invokedHandlers c.log), (c.pending[(7 : UInt16)]?).isSome,
        (c.receive (forged 7)).pending[(7 : UInt16)]?, invokedHandlers (c.receive (forged 7)).log)) =
      some (([], [], []), true, none, [0]) := by
    decide +kernel
  obtain ⟨c, hc, hfacts⟩ := Option.map_eq_some_iff.mp hfacts
  simp only [Prod.mk.injEq] at hfacts
  obtain ⟨⟨hstack, hdue, hbefore⟩, hpending, hgone, hafter⟩ := hfacts
  exact ⟨c, hc, hstack, hdue, .inl (by decide), by decide +kernel, hpending, hgone, hbefore, hafter⟩

end Client
end CxNetworking.Dns
