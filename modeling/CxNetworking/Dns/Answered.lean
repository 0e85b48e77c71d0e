import CxNetworking.Dns.Timeouts

/-! No query waits for ever. Every entry of `pending_` has its timer set, or its expiry is
among the functions that the loop has collected, so the first `fire_due_timers` after its
deadline is the latest that calls the handler. -/
namespace CxNetworking.Dns
open CxNetworking.Core Execution

namespace Client

variable {c d : Client} {a : ClientLabel} {id : UInt16} {n : Nat}

/-- What will expire the entry under `id`. -/
def Armed (c : Client) (id : UInt16) (e : Pending) : Prop :=
  (∃ t ∈ c.loop.timers, t.id = e.timer ∧ t.fn = id) ∨ id ∈ c.due

/-- Each entry is armed. Its timer is its own, so no other entry takes it along. -/
structure Guarded (c : Client) : Prop where
  armed : ∀ (id : UInt16) (e : Pending), c.pending[id]? = some e → c.Armed id e
  apart : ∀ (id id' : UInt16) (e e' : Pending), c.pending[id]? = some e → c.pending[id']? = some e' →
    e.timer = e'.timer → id = id'
  issued : ∀ (id : UInt16) (e : Pending), c.pending[id]? = some e → e.timer < c.loop.nextTimerId

theorem createWith_guarded (wakeFd : Handle) (T : Int) : (createWith wakeFd T).Guarded := by
  constructor <;> simp [createWith, create]

theorem Guarded.same (h : c.Guarded) (hpending : d.pending = c.pending) (hloop : d.loop = c.loop) (hdue : d.due = c.due) :
    d.Guarded where
  armed id e he := by
    rw [Armed, hloop, hdue]
    exact h.armed id e (hpending ▸ he)
  apart := by rw [hpending]; exact h.apart
  issued := by rw [hpending, hloop]; exact h.issued

theorem resolve_guarded (harmed : ∀ (id' : UInt16) (e : Pending), id ≠ id' → c.pending[id']? = some e → c.Armed id' e)
    (hapart : ∀ (id id' : UInt16) (e e' : Pending), c.pending[id]? = some e → c.pending[id']? = some e' →
      e.timer = e'.timer → id = id')
    (hissued : ∀ (id : UInt16) (e : Pending), c.pending[id]? = some e → e.timer < c.loop.nextTimerId)
    (answer : Option Message) : (c.resolve id answer).Guarded := by
  rcases c.resolve_cases id answer with ⟨hnone, heq⟩ | ⟨entry, hentry, heq⟩
  · rw [heq]
    refine ⟨fun id' e he => harmed id' e ?_ he, hapart, hissued⟩
    rintro rfl
    rw [hnone] at he
    cases he
  · have hkept : ∀ (id' : UInt16) (e : Pending), (c.pending.erase id)[id']? = some e →
        id ≠ id' ∧ c.pending[id']? = some e := by
      intro id' e he
      simpa only [Std.ExtTreeMap.getElem?_erase, Std.compare_eq_iff_eq, Option.ite_none_left_eq_some] using he
    rw [heq]
    refine ⟨?_, ?_, fun id' e he => hissued id' e (hkept id' e he).2⟩
    · intro id' e he
      obtain ⟨hne, he⟩ := hkept id' e he
      refine (harmed id' e hne he).imp_left ?_
      rintro ⟨t, ht, htimer, hfn⟩
      refine ⟨t, List.mem_filter.mpr ⟨ht, bne_iff_ne.mpr ?_⟩, htimer, hfn⟩
      rw [htimer]
      exact fun hsame => hne (hapart id id' entry e hentry he hsame.symm)
    · exact fun id₁ id₂ e₁ e₂ h₁ h₂ => hapart id₁ id₂ e₁ e₂ (hkept id₁ e₁ h₁).2 (hkept id₂ e₂ h₂).2

theorem Guarded.resolve (h : c.Guarded) (id : UInt16) (answer : Option Message) : (c.resolve id answer).Guarded :=
  resolve_guarded (fun id' e _ he => h.armed id' e he) h.apart h.issued answer

theorem enter_guarded (h : c.Guarded) {handler : Nat} {timer : Timer UInt16}
    (hpending : d.pending = c.pending.insertIfNew id { handler, timer := c.loop.nextTimerId })
    (htimers : d.loop.timers = c.loop.timers ++ [timer]) (htimer : timer.id = c.loop.nextTimerId) (hfn : timer.fn = id)
    (hnext : d.loop.nextTimerId = c.loop.nextTimerId + 1) (hdue : d.due = c.due) : d.Guarded := by
  have hentry : ∀ (id' : UInt16) (e : Pending), d.pending[id']? = some e →
      c.pending[id']? = some e ∨ (id = id' ∧ e.timer = c.loop.nextTimerId) := by
    intro id' e he
    rw [hpending, Std.ExtTreeMap.getElem?_insertIfNew] at he
    split at he
    · next hnew =>
        cases he
        exact .inr ⟨Std.compare_eq_iff_eq.mp hnew.1, rfl⟩
    · exact .inl he
  refine ⟨?_, ?_, ?_⟩
  · intro id' e he
    rw [Armed, htimers, hdue]
    rcases hentry id' e he with hold | ⟨rfl, hnew⟩
    · refine (h.armed id' e hold).imp_left ?_
      rintro ⟨t, ht, hfacts⟩
      exact ⟨t, List.mem_append_left _ ht, hfacts⟩
    · exact .inl ⟨timer, List.mem_append_right _ (List.mem_singleton_self _), htimer.trans hnew.symm, hfn⟩
  · intro id₁ id₂ e₁ e₂ h₁ h₂ hsame
    rcases hentry id₁ e₁ h₁ with h₁ | ⟨rfl, h₁⟩ <;> rcases hentry id₂ e₂ h₂ with h₂ | ⟨rfl, h₂⟩
    · exact h.apart id₁ id₂ e₁ e₂ h₁ h₂ hsame
    · have := h.issued id₁ e₁ h₁
      omega
    · have := h.issued id₂ e₂ h₂
      omega
    · rfl
  · intro id' e he
    rw [hnext]
    rcases hentry id' e he with hold | ⟨-, hnew⟩
    · exact Nat.lt_succ_of_lt (h.issued id' e hold)
    · omega

theorem query_guarded (h : c.Guarded) (name : Bytes) (type id : UInt16) (now : Int) (failure : Option Bytes) :
    (c.query name type id now failure).Guarded := by
  unfold query
  split
  · exact h.same rfl rfl rfl
  · cases failure with
    | none => exact enter_guarded h rfl rfl rfl rfl rfl rfl
    | some text => exact enter_guarded h rfl rfl rfl rfl rfl rfl

theorem collect_guarded (h : c.Guarded) (now : Int) (hdue : c.due = []) :
    Guarded { c with due := (c.loop.takeDue now).1, loop := (c.loop.takeDue now).2 } := by
  refine ⟨fun id e he => ?_, h.apart, h.issued⟩
  rcases h.armed id e he with ⟨t, ht, htimer, rfl⟩ | hmem
  · by_cases hlate : t.when ≤ now
    · exact .inr (List.mem_map_of_mem (List.mem_filter.mpr ⟨ht, decide_eq_true hlate⟩))
    · exact .inl ⟨t, List.mem_filter.mpr ⟨ht, decide_eq_true hlate⟩, htimer, rfl⟩
  · rw [hdue] at hmem
    cases hmem

theorem timer_guarded (h : c.Guarded) {due : List UInt16} (hdue : c.due = id :: due) :
    ({ c with due }.expire id).Guarded := by
  refine resolve_guarded (c := { c with due }) ?_ h.apart h.issued none
  intro id' e hne he
  refine (h.armed id' e he).imp_right fun hmem => ?_
  rw [hdue] at hmem
  exact (List.mem_cons.mp hmem).resolve_left (Ne.symm hne)

theorem step_guarded (h : c.Guarded) (hd : c.step a = some d) : d.Guarded := by
  rcases step_spec hd with ⟨_, _, _, _, _, rfl, heq⟩ | ⟨datagram, rfl, heq⟩ | ⟨text, rfl, heq⟩ | ⟨now, rfl, heq⟩ |
    ⟨id, due, rfl, hdue, heq⟩ | ⟨frame, stack, rfl, hstack, heq⟩ | ⟨timeout, rfl, heq⟩ <;> rw [heq]
  · exact query_guarded h _ _ _ _ _
  · unfold receive
    split
    · exact h.same rfl rfl rfl
    · exact h.resolve _ _
  · exact h.same rfl rfl rfl
  · exact collect_guarded h now (Option.ite_none_right_eq_some.mp hd).1.2
  · exact timer_guarded h hdue
  · have hrest : Guarded { c with stack } := h.same rfl rfl rfl
    cases frame with
    | leave => exact hrest
    | answerInvalid n => exact hrest.same rfl rfl rfl
    | resolveFailed id => exact hrest.resolve id none
  · exact h.same rfl rfl rfl

/-! ### The batch is run -/

/-- The handler was called, or its entry is among those that the batch will expire. -/
def Expiring (n : Nat) (c : Client) : Prop :=
  n ∈ invokedHandlers c.log ∨ ∃ (id : UInt16) (e : Pending), c.pending[id]? = some e ∧ e.handler = n ∧ id ∈ c.due

theorem Expiring.same (h : Expiring n c) (hlog : invokedHandlers d.log = invokedHandlers c.log)
    (hpending : ∀ (id : UInt16) (e : Pending), c.pending[id]? = some e → d.pending[id]? = some e)
    (hdue : d.due = c.due) : Expiring n d := by
  rcases h with hcalled | ⟨id, e, he, hn, hmem⟩
  · exact .inl (hlog ▸ hcalled)
  · exact .inr ⟨id, e, hpending id e he, hn, hdue ▸ hmem⟩

theorem Expiring.resolve (h : Expiring n c) (id : UInt16) (answer : Option Message) :
    Expiring n (c.resolve id answer) := by
  rcases c.resolve_cases id answer with ⟨-, heq⟩ | ⟨entry, hentry, heq⟩
  · rwa [heq]
  · rw [heq]
    rcases h with hcalled | ⟨id', e, he, hn, hmem⟩
    · exact .inl (List.mem_cons_of_mem _ hcalled)
    · by_cases hsame : id = id'
      · subst hsame
        cases hentry.symm.trans he
        exact .inl (hn ▸ List.mem_cons_self)
      · refine .inr ⟨id', e, ?_, hn, hmem⟩
        simpa only [Std.ExtTreeMap.getElem?_erase, Std.compare_eq_iff_eq, if_neg hsame] using he

theorem query_expiring (h : Expiring n c) (name : Bytes) (type id : UInt16) (now : Int) (failure : Option Bytes) :
    Expiring n (c.query name type id now failure) := by
  unfold query
  split
  · exact h.same rfl (fun _ _ he => he) rfl
  · have hkept : ∀ (entry : Pending) (id' : UInt16) (e : Pending), c.pending[id']? = some e →
        (c.pending.insertIfNew id entry)[id']? = some e := by
      intro entry id' e he
      rw [Std.ExtTreeMap.getElem?_insertIfNew, if_neg]
      · exact he
      · rintro ⟨hsame, hfree⟩
        rw [Std.compare_eq_iff_eq.mp hsame, Std.ExtTreeMap.mem_iff_isSome_getElem?, he] at hfree
        exact hfree rfl
    cases failure with
    | none => exact h.same rfl (hkept _) rfl
    | some text => exact h.same rfl (hkept _) rfl

theorem timer_expiring (h : Expiring n c) {due : List UInt16} (hdue : c.due = id :: due) :
    Expiring n ({ c with due }.expire id) := by
  rcases h with hcalled | ⟨id', e, he, hn, hmem⟩
  · exact Expiring.resolve (c := { c with due }) (.inl hcalled) id none
  · rw [hdue] at hmem
    rcases List.mem_cons.mp hmem with rfl | hmem
    · rcases Client.resolve_cases { c with due } id' none with ⟨hnone, -⟩ | ⟨entry, hentry, heq⟩
      · cases hnone.symm.trans he
      · rw [expire, heq]
        cases hentry.symm.trans he
        exact .inl (hn ▸ List.mem_cons_self)
    · exact Expiring.resolve (c := { c with due }) (.inr ⟨id', e, he, hn, hmem⟩) id none

theorem step_expiring (h : Expiring n c) (hd : c.step a = some d) : Expiring n d := by
  have hcalled (hdue : c.due = []) : n ∈ invokedHandlers c.log := by
    rcases h with hcalled | ⟨id, e, -, -, hmem⟩
    · exact hcalled
    · rw [hdue] at hmem
      cases hmem
  rcases step_spec hd with ⟨_, _, _, _, _, rfl, heq⟩ | ⟨datagram, rfl, heq⟩ | ⟨text, rfl, heq⟩ | ⟨now, rfl, heq⟩ |
    ⟨id, due, rfl, hdue, heq⟩ | ⟨frame, stack, rfl, hstack, heq⟩ | ⟨timeout, rfl, heq⟩ <;> rw [heq]
  · exact query_expiring h _ _ _ _ _
  · unfold receive
    split
    · exact h.same rfl (fun _ _ he => he) rfl
    · exact h.resolve _ _
  · exact h.same rfl (fun _ _ he => he) rfl
  · exact .inl (hcalled (Option.ite_none_right_eq_some.mp hd).1.2)
  · exact timer_expiring h hdue
  · have hrest : Expiring n { c with stack } := h.same rfl (fun _ _ he => he) rfl
    cases frame with
    | leave => exact hrest
    | answerInvalid m =>
        rcases hrest with hcalled | hwaits
        · exact .inl (List.mem_cons_of_mem _ hcalled)
        · exact .inr hwaits
    | resolveFailed id => exact hrest.resolve id none
  · exact h.same rfl (fun _ _ he => he) rfl

/-! ### The calls on record -/

/-- The calls of `query` on record are those of the log, each under a number of its own. -/
structure Recorded (c : Client) (g : Asking) : Prop where
  logged : ∀ q ∈ g.queries, .queried q.handler q.id ∈ c.log
  issued : ∀ q ∈ g.queries, q.handler < c.queries
  unique : ∀ q ∈ g.queries, ∀ q' ∈ g.queries, q.handler = q'.handler → q = q'

theorem query_queries (c : Client) (name : Bytes) (type id : UInt16) (now : Int) (failure : Option Bytes) :
    (c.query name type id now failure).queries = c.queries + 1 := by
  unfold query
  split
  · rfl
  · cases failure <;> rfl

theorem resolve_grows (c : Client) (id : UInt16) (answer : Option Message) :
    c.log ⊆ (c.resolve id answer).log ∧ (c.resolve id answer).queries = c.queries := by
  rcases c.resolve_cases id answer with ⟨-, heq⟩ | ⟨entry, -, heq⟩ <;> rw [heq]
  · exact ⟨List.Subset.refl _, rfl⟩
  · exact ⟨List.subset_cons_self _ _, rfl⟩

theorem step_grows (hd : c.step a = some d) (ha : ∀ name type id now failure, a ≠ .query name type id now failure) :
    c.log ⊆ d.log ∧ d.queries = c.queries := by
  rcases step_spec hd with ⟨name, type, id, now, failure, hquery, -⟩ | ⟨datagram, -, heq⟩ | ⟨text, -, heq⟩ |
    ⟨now, -, heq⟩ | ⟨id, due, -, -, heq⟩ | ⟨frame, stack, -, -, heq⟩ | ⟨timeout, -, heq⟩
  · exact absurd hquery (ha name type id now failure)
  · rw [heq]
    unfold receive
    split
    · exact ⟨List.subset_cons_self _ _, rfl⟩
    · next parsed _ => exact resolve_grows c parsed.header.id (some parsed)
  · rw [heq]
    exact ⟨List.subset_cons_self _ _, rfl⟩
  · rw [heq]
    exact ⟨List.Subset.refl _, rfl⟩
  · rw [heq]
    exact resolve_grows { c with due } id none
  · rw [heq]
    cases frame with
    | leave => exact ⟨List.Subset.refl _, rfl⟩
    | answerInvalid m => exact ⟨List.subset_cons_self _ _, rfl⟩
    | resolveFailed id => exact resolve_grows { c with stack } id none
  · rw [heq]
    exact ⟨List.Subset.refl _, rfl⟩

theorem query_recorded {g : Asking} (h : Recorded c g) (name : Bytes) (type id : UInt16) (now : Int)
    (failure : Option Bytes) :
    Recorded (c.query name type id now failure) (c.record (.query name type id now failure) g) := by
  obtain ⟨note, -, hlog⟩ := c.query_log name type id now failure
  have hnew : ∀ q ∈ g.queries, q.handler ≠ c.queries := fun q hq => Nat.ne_of_lt (h.issued q hq)
  refine ⟨?_, ?_, ?_⟩
  · rw [hlog]
    intro q hq
    rcases List.mem_cons.mp hq with rfl | hq
    · exact List.mem_cons_of_mem _ List.mem_cons_self
    · exact List.mem_cons_of_mem _ (List.mem_cons_of_mem _ (h.logged q hq))
  · rw [query_queries]
    intro q hq
    rcases List.mem_cons.mp hq with rfl | hq
    · exact Nat.lt_succ_self _
    · exact Nat.lt_succ_of_lt (h.issued q hq)
  · intro q hq q' hq' hsame
    rcases List.mem_cons.mp hq with rfl | hq <;> rcases List.mem_cons.mp hq' with rfl | hq'
    · rfl
    · exact absurd hsame.symm (hnew q' hq')
    · exact absurd hsame (hnew q hq)
    · exact h.unique q hq q' hq' hsame

theorem step_recorded {g : Asking} (h : Recorded c g) (hd : c.step a = some d) : Recorded d (c.record a g) := by
  by_cases ha : ∃ name type id now failure, a = .query name type id now failure
  · obtain ⟨name, type, id, now, failure, rfl⟩ := ha
    cases hd
    exact query_recorded h name type id now failure
  · simp only [not_exists] at ha
    obtain ⟨hlog, hqueries⟩ := step_grows hd ha
    have hkept : (c.record a g).queries = g.queries := by
      cases a with
      | query name type id now failure => exact absurd rfl (ha name type id now failure)
      | datagram _ | peerError _ | collect _ | timer | ret | setTimeout _ => rfl
    refine ⟨?_, ?_, ?_⟩ <;> rw [hkept]
    · exact fun q hq => hlog (h.logged q hq)
    · rw [hqueries]
      exact h.issued
    · exact h.unique

theorem createWith_recorded (wakeFd : Handle) (T : Int) : Recorded (createWith wakeFd T) {} := by
  constructor <;> simp

/-! ### In time -/

/-- What holds of a client together with the record of its calls. -/
structure Tended (T : Int) (c : Client) (g : Asking) : Prop where
  timed : Timed T c g
  guarded : c.Guarded
  recorded : Recorded c g
  noneLost : c.NoneLost

theorem step_tended {T : Int} {g : Asking} (h : Tended T c g) (hok : c.KeepsTimes a) (hd : c.step a = some d) :
    Tended T d (c.record a g) := by
  have hfresh : c.FreshId a := by
    cases a with
    | query name type id now failure => exact hok.1
    | datagram _ | peerError _ | collect _ | timer | ret | setTimeout _ => trivial
  exact ⟨step_timed h.timed hok hd, step_guarded h.guarded hd, step_recorded h.recorded hd,
    step_noneLost h.noneLost hfresh hd⟩

theorem createWith_tended (wakeFd : Handle) (T : Int) : Tended T (createWith wakeFd T) {} where
  timed := create_timed wakeFd T
  guarded := createWith_guarded wakeFd T
  recorded := createWith_recorded wakeFd T
  noneLost n id hn := by simp [createWith, create] at hn

theorem Tended.expiring {T : Int} {g : Asking} {now : Int} {q : Asked} (h : Tended T c g)
    (hd : c.step (.collect now) = some d) (hq : q ∈ g.queries) (hlate : q.now + T * nanosPerMilli ≤ now) :
    Expiring q.handler d := by
  obtain ⟨⟨hstack, hdue⟩, hd⟩ := Option.ite_none_right_eq_some.mp hd
  cases hd
  have hheld := (h.noneLost _ _ (h.recorded.logged q hq)).resolve_right (by simp [hstack, owedHandlers])
  rcases hheld with hcalled | ⟨e, he, hn⟩
  · exact .inl hcalled
  · rcases h.guarded.armed q.id e he with ⟨t, ht, -, hfn⟩ | hmem
    · -- the timer of the entry was set by this query, so it is due
      obtain ⟨e', he', q', hq', hhandler, -, hwhen⟩ := h.timed.timers t ht
      rw [hfn, he] at he'
      cases he'
      have hsame : q' = q := h.recorded.unique q' hq' q hq (hhandler.trans hn)
      rw [hsame] at hwhen
      refine .inr ⟨q.id, e, he, hn, hfn ▸ List.mem_map_of_mem (List.mem_filter.mpr ⟨ht, ?_⟩)⟩
      exact decide_eq_true (hwhen ▸ hlate)
    · rw [hdue] at hmem
      cases hmem

/-- No query waits for ever. In every run with a fixed timeout whose queries draw ids that
are not outstanding, once the loop has looked at its timers when a query's deadline has
passed, and has run what it collected then, the query's handler has been called, once,
whatever came in and was asked meanwhile. -/
theorem never_late (wakeFd : Handle) (T : Int) {as bs : List ClientLabel} {c d e : Client} {now : Int}
    (hok : Along step KeepsTimes (createWith wakeFd T) as) (hc : run step (createWith wakeFd T) as = some c)
    (hd : c.step (.collect now) = some d) (he : run step d bs = some e) (hdone : e.due = []) :
    ∀ q ∈ (history step record (createWith wakeFd T) as {}).queries, q.now + T * nanosPerMilli ≤ now →
      (invokedHandlers e.log).count q.handler = 1 := by
  intro q hq hlate
  have htended := history_invariant (fun _ _ _ _ => step_tended) (createWith_tended wakeFd T) hok hc
  have hexpiring : Expiring q.handler e :=
    run_invariant (fun _ _ _ => step_expiring) (htended.expiring hd hq hlate) he
  have hcalled : q.handler ∈ invokedHandlers e.log := by
    rcases hexpiring with hcalled | ⟨id, entry, -, -, hmem⟩
    · exact hcalled
    · rw [hdone] at hmem
      cases hmem
  have hrun : run step (createWith wakeFd T) (as ++ .collect now :: bs) = some e :=
    run_append hc (run_cons.mpr ⟨d, hd, he⟩)
  have hstart : (createWith wakeFd T).Single := (create_single wakeFd).same rfl rfl rfl
  have hsingle : e.Single := run_invariant (fun _ _ _ => step_single) hstart hrun
  exact List.count_eq_one_of_mem (List.nodup_append.mp hsingle.nodup).1 hcalled

/-- Two queries get no reply; the handler of the first asks again when it is called. -/
def silentRun : List ClientLabel := [.query [97] 1 7 0 none, .query [98] 1 8 0 none]

def expiringRun : List ClientLabel := [.timer, .query [97] 1 9 6000000000 none, .ret, .timer, .ret]

theorem expiringRun_answers :
    ∃ c d e, run step (createWith 3 5000) silentRun = some c ∧ c.step (.collect 6000000000) = some d ∧
      run step d expiringRun = some e ∧ e.due = [] ∧ e.pending.size = 1 ∧ (invokedHandlers e.log).count 0 = 1 ∧
      (invokedHandlers e.log).count 1 = 1 := by
  have hfacts : (run step (createWith 3 5000) silentRun).bind (fun c => (c.step (.collect 6000000000)).bind fun d =>
      (run step d expiringRun).map fun e => (e.due, e.pending.size)) = some ([], 1) := by
    decide +kernel
  obtain ⟨c, hc, hfacts⟩ := Option.bind_eq_some_iff.mp hfacts
  obtain ⟨d, hd, hfacts⟩ := Option.bind_eq_some_iff.mp hfacts
  obtain ⟨e, he, hfacts⟩ := Option.map_eq_some_iff.mp hfacts
  obtain ⟨hdue, hsize⟩ := Prod.mk.inj hfacts
  have hasked : (history step record (createWith 3 5000) silentRun {}).queries =
      [⟨1, [98], 1, 8, 0, none⟩, ⟨0, [97], 1, 7, 0, none⟩] := by
    decide +kernel
  have hcalled := never_late 3 5000 (by decide +kernel) hc hd he hdue
  rw [hasked] at hcalled
  refine ⟨c, d, e, hc, hd, he, hdue, hsize, ?_, ?_⟩
  · exact hcalled ⟨0, [97], 1, 7, 0, none⟩ (by simp) (by decide)
  · exact hcalled ⟨1, [98], 1, 8, 0, none⟩ (by simp) (by decide)

end Client
end CxNetworking.Dns
