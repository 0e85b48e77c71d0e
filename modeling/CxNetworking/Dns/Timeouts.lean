import CxNetworking.Dns.ClientCallbacks
import CxNetworking.Lib.History

/-! When `dns::client` gives up on a query: the timers of its loop against the entries of
`pending_`. -/
namespace CxNetworking.Dns
open CxNetworking.Core Execution

/-- A call of `query`, with the clock as its `set_timeout` reads it. -/
structure Asked where
  handler : Nat
  name : Bytes
  type : UInt16
  id : UInt16
  now : Int
  failure : Option Bytes
  deriving DecidableEq, Repr

/-- The calls so far, and the clock as the last `fire_due_timers` read it. -/
structure Asking where
  queries : List Asked := []
  clock : Option Int := none
  deriving DecidableEq, Repr

def Asked.Expired (q : Asked) (timeout : Int) (clock : Option Int) : Prop :=
  ∃ now ∈ clock, q.now + timeout * nanosPerMilli ≤ now

/-- The ids that a `query` will resolve, as it could not send, when the error's listeners
return. -/
def failedIds : List Resume → List UInt16
  | [] => []
  | .resolveFailed id :: stack => id :: failedIds stack
  | _ :: stack => failedIds stack

namespace Client

def createWith (wakeFd : Handle) (timeout : Int) : Client := { create wakeFd with timeout }

def record (c : Client) : ClientLabel → Asking → Asking
  | .query name type id now failure, g =>
    { g with queries := { handler := c.queries, name, type, id, now, failure } :: g.queries }
  | .collect now, g => { g with clock := some now }
  | _, g => g

/-- The entry under `id`, and the call it stems from. -/
def Awaits (c : Client) (g : Asking) (id : UInt16) (P : Pending → Asked → Prop) : Prop :=
  ∃ e : Pending, c.pending[id]? = some e ∧ ∃ q ∈ g.queries, q.handler = e.handler ∧ P e q

/-- Each live timer is that of the entry it will expire, set when its query was called.
What is resolved with no answer has an entry, and a reason; the `apart` and `doomed` parts
say that nothing is resolved twice over. -/
structure Timed (T : Int) (c : Client) (g : Asking) : Prop where
  fixed : c.timeout = T
  timers : ∀ t ∈ c.loop.timers,
    c.Awaits g t.fn fun e q => e.timer = t.id ∧ t.when = q.now + T * nanosPerMilli
  apart : (c.loop.timers.map (·.fn)).Nodup
  due : ∀ id ∈ c.due, c.Awaits g id fun _ q => q.Expired T g.clock
  failed : ∀ id ∈ failedIds c.stack, c.Awaits g id fun _ q => q.failure ≠ none
  owed : ∀ n ∈ owedHandlers c.stack, ∃ q ∈ g.queries, q.handler = n ∧ (request q.name q.type q.id).serialize = none
  doomed : (failedIds c.stack ++ c.due).Nodup

/-- Ids are drawn as for `FreshId`, the timeout stays, and the arithmetic of `steady_clock`
does not overflow. -/
def KeepsTimes (c : Client) : ClientLabel → Prop
  | .query name type id now failure =>
    c.FreshId (.query name type id now failure) ∧ deadline now c.timeout = now + c.timeout * nanosPerMilli
  | .setTimeout _ => False
  | _ => True

instance (c : Client) (a : ClientLabel) : Decidable (c.KeepsTimes a) :=
  match a with
  | .query _ _ _ _ _ => inferInstanceAs (Decidable (_ ∧ _))
  | .setTimeout _ => isFalse id
  | .datagram _ | .peerError _ | .collect _ | .timer | .ret => isTrue trivial

theorem Awaits.imp {c d : Client} {g g' : Asking} {id : UInt16} {P Q : Pending → Asked → Prop} (h : c.Awaits g id P)
    (hpending : ∀ e, c.pending[id]? = some e → d.pending[id]? = some e) (hqueries : g.queries ⊆ g'.queries)
    (hPQ : ∀ e q, P e q → Q e q) : d.Awaits g' id Q := by
  obtain ⟨e, he, q, hq, hsame, hP⟩ := h
  exact ⟨e, hpending e he, q, hqueries hq, hsame, hPQ e q hP⟩

variable {T : Int} {c d : Client} {g : Asking}

theorem create_timed (wakeFd : Handle) (T : Int) : Timed T (createWith wakeFd T) {} := by
  constructor <;> simp [createWith, create, failedIds, owedHandlers]

theorem Timed.same (h : Timed T c g) (htimeout : d.timeout = c.timeout) (hpending : d.pending = c.pending)
    (htimers : d.loop.timers = c.loop.timers) (hdue : d.due.Sublist c.due)
    (hfailed : (failedIds d.stack).Sublist (failedIds c.stack))
    (howed : (owedHandlers d.stack).Sublist (owedHandlers c.stack)) : Timed T d g := by
  have hkept : ∀ {id P}, c.Awaits g id P → d.Awaits g id P := fun ha =>
    ha.imp (fun e he => hpending ▸ he) (List.Subset.refl _) (fun _ _ hP => hP)
  refine ⟨htimeout.trans h.fixed, fun t ht => ?_, htimers ▸ h.apart, ?_, ?_, ?_, ?_⟩
  · exact hkept (h.timers t (htimers ▸ ht))
  · exact fun id hid => hkept (h.due id (hdue.subset hid))
  · exact fun id hid => hkept (h.failed id (hfailed.subset hid))
  · exact fun n hn => h.owed n (howed.subset hn)
  · exact h.doomed.sublist (hfailed.append hdue)

/-- An entry is erased together with its timer, which is the only one that would expire it. -/
theorem resolve_timed (h : Timed T c g) {id : UInt16} (hid : id ∉ failedIds c.stack ++ c.due)
    (answer : Option Message) : Timed T (c.resolve id answer) g := by
  rcases c.resolve_cases id answer with ⟨-, heq⟩ | ⟨entry, hentry, heq⟩
  · rwa [heq]
  · rw [heq]
    have hkept : ∀ {id' : UInt16} {P}, id ≠ id' → c.Awaits g id' P → Awaits
        { c with
          pending := c.pending.erase id
          loop := c.loop.clearTimeout entry.timer
          stack := .leave :: c.stack
          log := .invoked entry.handler answer :: c.log } g id' P := by
      intro id' P hne ha
      refine ha.imp (fun e he => ?_) (List.Subset.refl _) (fun _ _ hP => hP)
      simpa only [Std.ExtTreeMap.getElem?_erase, Std.compare_eq_iff_eq, if_neg hne] using he
    have hne : ∀ id' ∈ failedIds c.stack ++ c.due, id ≠ id' := fun id' hmem heq => hid (heq ▸ hmem)
    refine ⟨h.fixed, fun t ht => ?_, ?_, fun id' hid' => ?_, fun id' hid' => ?_, h.owed, h.doomed⟩
    · simp only [EventLoop.clearTimeout, List.mem_filter, bne_iff_ne] at ht
      have hfn : id ≠ t.fn := by
        rintro rfl
        obtain ⟨e, he, q, -, -, htimer, -⟩ := h.timers t ht.1
        cases hentry.symm.trans he
        exact ht.2 htimer.symm
      exact hkept hfn (h.timers t ht.1)
    · exact h.apart.sublist (List.filter_sublist.map _)
    · exact hkept (hne id' (List.mem_append_right _ hid')) (h.due id' hid')
    · exact hkept (hne id' (List.mem_append_left _ hid')) (h.failed id' hid')

theorem submit_timers (c : Client) (handler : Nat) (id : UInt16) (wire : Bytes) (now : Int)
    (failure : Option Bytes) :
    ∃ d, c.submit handler id wire now failure = d ∧ d.timeout = c.timeout ∧ d.due = c.due ∧
      d.loop.timers = c.loop.timers ++ [{ id := c.loop.nextTimerId, when := deadline now c.timeout, fn := id }] ∧
      failedIds d.stack = (failure.map fun _ => id).toList ++ failedIds c.stack := by
  cases failure with
  | none => exact ⟨_, rfl, rfl, rfl, rfl, rfl⟩
  | some text => exact ⟨_, rfl, rfl, rfl, rfl, rfl⟩

theorem refuse_timed (h : Timed T c g) {name : Bytes} {type id : UInt16} {now : Int} {failure : Option Bytes}
    (hnone : (request name type id).serialize = none) (hfixed : d.timeout = c.timeout) (hpending : d.pending = c.pending)
    (hloop : d.loop = c.loop) (hdue : d.due = c.due) (hstack : d.stack = .answerInvalid c.queries :: c.stack) :
    Timed T d (c.record (.query name type id now failure) g) := by
  have hmore : g.queries ⊆ (c.record (.query name type id now failure) g).queries := List.subset_cons_self _ _
  have hkept : ∀ {id' P}, c.Awaits g id' P → d.Awaits (c.record (.query name type id now failure) g) id' P :=
    fun ha => ha.imp (fun _ he => hpending ▸ he) hmore (fun _ _ hP => hP)
  refine ⟨hfixed.trans h.fixed, fun t ht => hkept (h.timers t (hloop ▸ ht)), hloop ▸ h.apart,
    fun id' hid => hkept (h.due id' (hdue ▸ hid)), ?_, ?_, ?_⟩ <;> rw [hstack]
  · exact fun id' hid => hkept (h.failed id' hid)
  · intro n hn
    rcases List.mem_cons.mp hn with rfl | hn
    · exact ⟨_, List.mem_cons_self, rfl, hnone⟩
    · obtain ⟨q, hq, hfacts⟩ := h.owed n hn
      exact ⟨q, hmore hq, hfacts⟩
  · exact hdue ▸ h.doomed

/-- A query whose id is free gets an entry and a timer of its own. -/
theorem enter_timed (h : Timed T c g) {name : Bytes} {type id : UInt16} {now : Int} {failure : Option Bytes}
    (hfree : c.pending[id]? = none) (hnow : deadline now c.timeout = now + c.timeout * nanosPerMilli)
    (hfixed : d.timeout = c.timeout) (hdue : d.due = c.due) (howed : owedHandlers d.stack = owedHandlers c.stack)
    (hpending : d.pending = c.pending.insertIfNew id { handler := c.queries, timer := c.loop.nextTimerId })
    (htimers : d.loop.timers =
      c.loop.timers ++ [{ id := c.loop.nextTimerId, when := deadline now c.timeout, fn := id }])
    (hfailed : failedIds d.stack = (failure.map fun _ => id).toList ++ failedIds c.stack) :
    Timed T d (c.record (.query name type id now failure) g) := by
  have hmore : g.queries ⊆ (c.record (.query name type id now failure) g).queries := List.subset_cons_self _ _
  have hne : ∀ {id' P}, c.Awaits g id' P → id ≠ id' := by
    rintro id' P ⟨e, he, -⟩ rfl
    simp [hfree] at he
  have hkept : ∀ {id' P}, c.Awaits g id' P → d.Awaits (c.record (.query name type id now failure) g) id' P := by
    intro id' P ha
    refine ha.imp (fun e he => ?_) hmore (fun _ _ hP => hP)
    rwa [hpending, emplace_free hfree, if_neg (hne ha)]
  have hnew : ∀ {P : Pending → Asked → Prop}, P { handler := c.queries, timer := c.loop.nextTimerId }
      { handler := c.queries, name, type, id, now, failure } →
      d.Awaits (c.record (.query name type id now failure) g) id P := fun hP =>
    ⟨_, by rw [hpending, emplace_free hfree, if_pos rfl], _, List.mem_cons_self, rfl, hP⟩
  refine ⟨hfixed.trans h.fixed, ?_, ?_, fun id' hid => hkept (h.due id' (hdue ▸ hid)), ?_, ?_, ?_⟩
  · intro t ht
    rw [htimers] at ht
    rcases List.mem_append.mp ht with ht | ht
    · exact hkept (h.timers t ht)
    · cases List.mem_singleton.mp ht
      exact hnew ⟨rfl, h.fixed ▸ hnow⟩
  · rw [htimers, List.map_append]
    refine List.nodup_append.mpr ⟨h.apart, List.nodup_singleton _, ?_⟩
    intro fn hfn fn' hfn'
    obtain ⟨t, ht, rfl⟩ := List.mem_map.mp hfn
    rw [List.mem_singleton.mp hfn']
    exact (hne (h.timers t ht)).symm
  · rw [hfailed]
    intro id' hid
    rcases List.mem_append.mp hid with hid | hid
    · cases failure with
      | none => cases hid
      | some text =>
          cases List.mem_singleton.mp hid
          exact hnew nofun
    · exact hkept (h.failed id' hid)
  · rw [howed]
    intro n hn
    obtain ⟨q, hq, hfacts⟩ := h.owed n hn
    exact ⟨q, hmore hq, hfacts⟩
  · have hunused : id ∉ failedIds c.stack ++ c.due := fun hmem =>
      (List.mem_append.mp hmem).elim (fun hm => hne (h.failed id hm) rfl) (fun hm => hne (h.due id hm) rfl)
    rw [hfailed, hdue]
    cases failure with
    | none => exact h.doomed
    | some text => exact List.nodup_cons.mpr ⟨hunused, h.doomed⟩

theorem query_timed (h : Timed T c g) {name : Bytes} {type id : UInt16} {now : Int} {failure : Option Bytes}
    (hok : c.KeepsTimes (.query name type id now failure)) :
    Timed T (c.query name type id now failure) (c.record (.query name type id now failure) g) := by
  unfold query
  split
  · next hnone => exact refuse_timed h hnone rfl rfl rfl rfl rfl
  · next wire hwire =>
      obtain ⟨_, d, hd, -, -, -, howed, -, hpending⟩ :=
        submit_spec { c with queries := c.queries + 1, log := .queried c.queries id :: c.log } c.queries id wire now
          failure
      obtain ⟨d', hd', hfixed, hdue, htimers, hfailed⟩ :=
        submit_timers { c with queries := c.queries + 1, log := .queried c.queries id :: c.log } c.queries id wire now
          failure
      rw [hd]
      cases hd.symm.trans hd'
      exact enter_timed h (hok.1 (by simp [hwire])) hok.2 hfixed hdue howed hpending htimers hfailed

theorem collect_timed (h : Timed T c g) (now : Int) (hstack : c.stack = []) :
    Timed T { c with due := (c.loop.takeDue now).1, loop := (c.loop.takeDue now).2 } (c.record (.collect now) g) := by
  refine ⟨h.fixed, ?_, h.apart.sublist (List.filter_sublist.map _), ?_, ?_, ?_, ?_⟩
  · intro t ht
    exact h.timers t (List.mem_of_mem_filter ht)
  · intro id hid
    obtain ⟨t, ht, rfl⟩ := List.mem_map.mp hid
    simp only [List.mem_filter, decide_eq_true_eq] at ht
    refine (h.timers t ht.1).imp (fun _ he => he) (List.Subset.refl _) ?_
    rintro e q ⟨-, hwhen⟩
    exact ⟨now, rfl, hwhen ▸ ht.2⟩
  · exact fun id hid => h.failed id hid
  · exact h.owed
  · rw [hstack]
    exact h.apart.sublist (List.filter_sublist.map _)

theorem timer_timed (h : Timed T c g) {id : UInt16} {due : List UInt16} (hdue : c.due = id :: due) :
    Timed T ({ c with due }.expire id) g := by
  have hdoomed := h.doomed
  rw [hdue] at hdoomed
  refine resolve_timed ?_ (List.nodup_middle.mp hdoomed).notMem none
  exact h.same rfl rfl rfl (hdue ▸ List.sublist_cons_self id due) (List.Sublist.refl _) (List.Sublist.refl _)

theorem resume_timed (h : Timed T c g) {frame : Resume} {stack : List Resume} (hstack : c.stack = frame :: stack) :
    Timed T ({ c with stack }.resume frame) g := by
  have hrest : Timed T { c with stack } g := by
    refine h.same rfl rfl rfl (List.Sublist.refl _) ?_ ?_ <;> rw [hstack]
    · cases frame <;> simp [failedIds]
    · cases frame <;> simp [owedHandlers]
  cases frame with
  | leave => exact hrest
  | answerInvalid n =>
      exact hrest.same rfl rfl rfl (List.Sublist.refl _) (List.Sublist.refl _) (List.Sublist.refl _)
  | resolveFailed id =>
      have hdoomed := h.doomed
      rw [hstack] at hdoomed
      exact resolve_timed hrest (List.nodup_cons.mp hdoomed).1 none

theorem step_timed {a : ClientLabel} (h : Timed T c g) (hok : c.KeepsTimes a) (hd : c.step a = some d) :
    Timed T d (c.record a g) := by
  rcases step_spec hd with ⟨_, _, _, _, _, rfl, heq⟩ | ⟨datagram, rfl, heq⟩ | ⟨text, rfl, heq⟩ | ⟨now, rfl, heq⟩ |
    ⟨id, due, rfl, hdue, heq⟩ | ⟨frame, stack, rfl, hstack, heq⟩ | ⟨timeout, rfl, heq⟩ <;> rw [heq]
  · exact query_timed h hok
  · -- nothing is to be resolved when a datagram comes in
    obtain ⟨⟨hstack, hdue⟩, -⟩ := Option.ite_none_right_eq_some.mp hd
    unfold receive
    split
    · exact h.same rfl rfl rfl (List.Sublist.refl _) (List.Sublist.refl _) (List.Sublist.refl _)
    · exact resolve_timed h (by simp [hstack, hdue, failedIds]) _
  · exact h.same rfl rfl rfl (List.Sublist.refl _) (List.Sublist.refl _) (List.Sublist.refl _)
  · exact collect_timed h now (Option.ite_none_right_eq_some.mp hd).1.1
  · exact timer_timed h hdue
  · exact resume_timed h hstack
  · exact hok.elim

/-- A handler called without a message, in a state where the timers are in order. -/
theorem Timed.unanswered {a : ClientLabel} {n : Nat} (h : Timed T c g) (hd : c.step a = some d)
    (hcall : d.log = .invoked n none :: c.log) :
    ∃ q ∈ g.queries, q.handler = n ∧
      ((request q.name q.type q.id).serialize = none ∨ q.failure ≠ none ∨ q.Expired T g.clock) := by
  rcases step_spec hd with ⟨_, _, _, _, _, -, heq⟩ | ⟨datagram, -, heq⟩ | ⟨text, -, heq⟩ | ⟨now, -, heq⟩ |
    ⟨id, due, -, hdue, heq⟩ | ⟨frame, stack, -, hstack, heq⟩ | ⟨timeout, -, heq⟩ <;> rw [heq] at hcall
  · obtain ⟨note, hnote, hlog⟩ := c.query_log _ _ _ _ _
    rw [hlog] at hcall
    exact (hnote _ _ (List.cons.inj hcall).1).elim
  · unfold receive at hcall
    split at hcall
    · simp at hcall
    · exact nomatch (resolve_invoked hcall).1
  · simp [peerError] at hcall
  · exact ((List.cons_ne_self _ _) hcall.symm).elim
  · obtain ⟨-, e, he, hn⟩ := resolve_invoked (c := { c with due }) hcall
    obtain ⟨e', he', q, hq, hsame, hexpired⟩ := h.due id (hdue ▸ List.mem_cons_self)
    cases he.symm.trans he'
    exact ⟨q, hq, hsame.trans hn, .inr (.inr hexpired)⟩
  · cases frame with
    | leave => exact ((List.cons_ne_self _ _) hcall.symm).elim
    | answerInvalid n' =>
        obtain ⟨q, hq, hsame, hnone⟩ := h.owed n' (by simp [hstack, owedHandlers])
        simp only [resume, List.cons.injEq, ClientNote.invoked.injEq, and_true] at hcall
        exact ⟨q, hq, hsame.trans hcall, .inl hnone⟩
    | resolveFailed id =>
        obtain ⟨-, e, he, hn⟩ := resolve_invoked (c := { c with stack }) hcall
        obtain ⟨e', he', q, hq, hsame, hfailed⟩ := h.failed id (by simp [hstack, failedIds])
        cases he.symm.trans he'
        exact ⟨q, hq, hsame.trans hn, .inr (.inl hfailed)⟩
  · exact ((List.cons_ne_self _ _) hcall.symm).elim

/-- In every run with a fixed timeout whose queries draw ids that are not outstanding, each
live timer is that of the entry it will expire, and a handler is called without a message
only if its own query had no encoding, was not sent, or was called a timeout ago. -/
theorem never_early (wakeFd : Handle) (T : Int) {as : List ClientLabel} {c : Client}
    (hok : Along step KeepsTimes (createWith wakeFd T) as)
    (hc : run step (createWith wakeFd T) as = some c) :
    (∀ t ∈ c.loop.timers, ∃ e : Pending, c.pending[t.fn]? = some e ∧ e.timer = t.id) ∧
    ∀ a d n, c.step a = some d → d.log = .invoked n none :: c.log →
      ∃ q ∈ (history step record (createWith wakeFd T) as {}).queries, q.handler = n ∧
        ((request q.name q.type q.id).serialize = none ∨ q.failure ≠ none ∨
          q.Expired T (history step record (createWith wakeFd T) as {}).clock) := by
  have htimed := history_invariant (fun _ _ _ _ => step_timed) (create_timed wakeFd T) hok hc
  refine ⟨fun t ht => ?_, fun a d n hd hcall => htimed.unanswered hd hcall⟩
  obtain ⟨e, he, -, -, -, htimer, -⟩ := htimed.timers t ht
  exact ⟨e, he, htimer⟩

/-- One query is answered, another cannot be sent, and a third is due after its timeout. -/
def timelyRun : List ClientLabel :=
  [.query [97] 1 7 0 none, .datagram (ascii "\x00\x07" ++ List.replicate 10 0), .ret,
    .query [98] 1 8 0 (some (ascii "network unreachable")), .ret, .ret, .query [99] 1 7 1000000000 none,
    .collect 6000000000]

theorem timelyRun_expires :
    ∃ c d, run step (createWith 3 5000) timelyRun = some c ∧ c.step .timer = some d ∧
      d.log = .invoked 2 none :: c.log ∧
      ∃ q ∈ (history step record (createWith 3 5000) timelyRun {}).queries, q.handler = 2 ∧
        ((request q.name q.type q.id).serialize = none ∨ q.failure ≠ none ∨
          q.Expired 5000 (history step record (createWith 3 5000) timelyRun {}).clock) := by
  have hfacts : (run step (createWith 3 5000) timelyRun).bind (fun c => (c.step .timer).map fun d =>
      decide (d.log = .invoked 2 none :: c.log)) = some true := by
    decide +kernel
  obtain ⟨c, hc, hfacts⟩ := Option.bind_eq_some_iff.mp hfacts
  obtain ⟨d, hd, hcall⟩ := Option.map_eq_some_iff.mp hfacts
  have hcall := of_decide_eq_true hcall
  exact ⟨c, d, hc, hd, hcall, (never_early 3 5000 (by decide +kernel) hc).2 _ d 2 hd hcall⟩

/-- The second query draws the id of the first, so it has a timer but no entry. The first
is answered, and the third draws the same id again. -/
def strayTimerRun : List ClientLabel :=
  [.query [97] 1 7 0 none, .query [98] 1 7 1000000000 none,
    .datagram (ascii "\x00\x07" ++ List.replicate 10 0), .ret, .query [99] 1 7 3000000000 none]

/-- The second query's timer is live under an id whose entry is the third's, and expires
that one three seconds after it was sent. -/
theorem strayTimerRun_early :
    ∃ b c d, run step (createWith 3 5000) strayTimerRun = some b ∧
      (∃ t ∈ b.loop.timers, ∀ e : Pending, b.pending[t.fn]? = some e → e.timer ≠ t.id) ∧
      b.step (.collect 6000000000) = some c ∧ c.step .timer = some d ∧ d.log = .invoked 2 none :: c.log ∧
      ∀ q ∈ (history step record (createWith 3 5000) strayTimerRun {}).queries, q.handler = 2 →
        (request q.name q.type q.id).serialize ≠ none ∧ q.failure = none ∧
          ¬ q.Expired 5000 (some 6000000000) := by
  have hfacts : (run step (createWith 3 5000) strayTimerRun).bind (fun b =>
      (b.step (.collect 6000000000)).bind fun c => (c.step .timer).map fun d =>
        (b.loop.timers.map (fun t => (t.id, t.fn)), b.pending[(7 : UInt16)]?,
          decide (d.log = .invoked 2 none :: c.log))) =
      some ([(2, 7), (3, 7)], some { handler := 2, timer := 3 }, true) := by
    decide +kernel
  have hasked : (history step record (createWith 3 5000) strayTimerRun {}).queries =
      [⟨2, [99], 1, 7, 3000000000, none⟩, ⟨1, [98], 1, 7, 1000000000, none⟩, ⟨0, [97], 1, 7, 0, none⟩] := by
    decide +kernel
  obtain ⟨b, hb, hfacts⟩ := Option.bind_eq_some_iff.mp hfacts
  obtain ⟨c, hc, hfacts⟩ := Option.bind_eq_some_iff.mp hfacts
  obtain ⟨d, hd, hfacts⟩ := Option.map_eq_some_iff.mp hfacts
  simp only [Prod.mk.injEq, decide_eq_true_eq] at hfacts
  obtain ⟨htimers, hpending, hcall⟩ := hfacts
  refine ⟨b, c, d, hb, ?_, hc, hd, hcall, ?_⟩
  · have hmem : ((2, 7) : Nat × UInt16) ∈ b.loop.timers.map fun t => (t.id, t.fn) := htimers ▸ List.mem_cons_self
    obtain ⟨t, ht, hfields⟩ := List.mem_map.mp hmem
    obtain ⟨hid, hfn⟩ := Prod.mk.inj hfields
    refine ⟨t, ht, fun e he => ?_⟩
    rw [hfn, hpending] at he
    cases he
    simp [hid]
  · rw [hasked]
    intro q hq hn
    simp only [List.mem_cons, List.not_mem_nil, or_false] at hq
    rcases hq with rfl | rfl | rfl
    · exact ⟨by decide +kernel, rfl, by simp [Asked.Expired, nanosPerMilli]⟩
    · cases hn
    · cases hn

end Client
end CxNetworking.Dns
