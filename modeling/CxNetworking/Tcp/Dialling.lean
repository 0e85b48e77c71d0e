import CxNetworking.Core.PoolDrain
import CxNetworking.Lib.History
import CxNetworking.Lib.Simulation
import CxNetworking.Tcp.Socket

/-! `socket::connect` with the thread pool it goes through. The socket's own model counts
the lookups under way; here there is no such count: the lookups are tasks of the pool, and
a worker that runs one defers its result to the loop. -/
namespace CxNetworking.Tcp
open CxNetworking.Core Execution

/-- A socket and the pool. `lookups` are the socket's tasks that have not yet called
`defer`, and `lost` are those that threw before they did. The pool may have other tasks.
The count `resolving` of the socket's model is not used. -/
structure Dialling where
  conn : Conn
  pool : ThreadPool
  lookups : List Nat := []
  lost : List Nat := []

/-- `connect` is the user's call up to the locked section of `submit`; `resolve` is the
`defer` of the task that worker `i` runs. -/
inductive DialLabel where
  | conn (a : ConnLabel)
  | connect (t : Nat) (x : Submitter)
  | resolve (i : Nat) (addrs : List SocketAddress)
  | pool (b : PoolLabel)
  deriving DecidableEq, Repr

/-- The labels by which the socket's own model stands for the pool. -/
def ConnLabel.isLookup : ConnLabel → Bool
  | .call _ .connect | .resolved _ => true
  | _ => false

namespace Dialling

/-- The task a worker runs, when it is a lookup still to be handed over. -/
def lookup (d : Dialling) (i : Nat) : Option Nat :=
  match d.pool.workers[i]? with
  | some (.running task) => if task ∈ d.lookups then some task else none
  | _ => none

def step (d : Dialling) : DialLabel → Option Dialling
  | .conn a => if a.isLookup then none else (d.conn.step a).map fun conn => { d with conn }
  | .connect t x =>
    if d.conn.inUser t ∧ d.pool.maySubmit x then
      some { d with
        conn := { d.conn with log := .called .connect :: d.conn.log }
        pool := d.pool.push x .normal
        lookups := d.pool.submitted :: d.lookups }
    else none
  | .resolve i addrs =>
    (d.lookup i).map fun task =>
      { d with conn := { d.conn with loop := d.conn.loop.defer addrs }, lookups := d.lookups.erase task }
  | .pool (.finish i o) =>
    match d.lookup i with
    | some task =>
      -- The function ends before its `defer` only by an exception.
      if o = .returned then none
      else (d.pool.step (.finish i o)).map fun pool => { d with pool, lookups := d.lookups.erase task, lost := task :: d.lost }
    | none => (d.pool.step (.finish i o)).map fun pool => { d with pool }
  | .pool b => (d.pool.step b).map fun pool => { d with pool }

inductive Step (d : Dialling) : DialLabel → Dialling → Prop
  | conn {a c} : a.isLookup = false → d.conn.step a = some c → Step d (.conn a) { d with conn := c }
  | connect {t x} : d.conn.inUser t = true → d.pool.maySubmit x = true → Step d (.connect t x)
      { d with
        conn := { d.conn with log := .called .connect :: d.conn.log }
        pool := d.pool.push x .normal
        lookups := d.pool.submitted :: d.lookups }
  | resolve {i addrs task} : d.lookup i = some task → Step d (.resolve i addrs)
      { d with conn := { d.conn with loop := d.conn.loop.defer addrs }, lookups := d.lookups.erase task }
  | lose {i o task p} : d.lookup i = some task → d.pool.step (.finish i o) = some p →
      Step d (.pool (.finish i o)) { d with pool := p, lookups := d.lookups.erase task, lost := task :: d.lost }
  | pool {b p} : (∀ i o, b = .finish i o → d.lookup i = none) → d.pool.step b = some p →
      Step d (.pool b) { d with pool := p }

variable {d e : Dialling} {a : DialLabel}

theorem step_spec (h : d.step a = some e) : Step d a e := by
  cases a with
  | conn a =>
      rw [step] at h
      split at h
      next => cases h
      next ha =>
        obtain ⟨c, hc, rfl⟩ := Option.map_eq_some_iff.mp h
        exact .conn (Bool.eq_false_iff.mpr ha) hc
  | connect t x =>
      rw [step] at h
      split at h
      next hg => cases h; exact .connect hg.1 hg.2
      next => cases h
  | resolve i addrs =>
      obtain ⟨task, ht, rfl⟩ := Option.map_eq_some_iff.mp h
      exact .resolve ht
  | pool b =>
      cases b with
      | finish i o =>
          rw [step] at h
          split at h
          next task ht =>
            split at h
            next => cases h
            next =>
              obtain ⟨p, hp, rfl⟩ := Option.map_eq_some_iff.mp h
              exact .lose ht hp
          next hn =>
            obtain ⟨p, hp, rfl⟩ := Option.map_eq_some_iff.mp h
            refine .pool ?_ hp
            intro j o' he
            cases he
            exact hn
      | submit _ _ | notify _ _ | wake _ | turn _ | destroy | stop _ | join _ =>
          obtain ⟨p, hp, rfl⟩ := Option.map_eq_some_iff.mp h
          exact .pool nofun hp

theorem lookup_eq_some {i task : Nat} :
    d.lookup i = some task ↔ d.pool.workers[i]? = some (.running task) ∧ task ∈ d.lookups := by
  rw [lookup]
  split
  next t ht => grind
  next hne => grind

/-! ### The pool's part -/

def poolImage : DialLabel → List PoolLabel
  | .connect _ x => [.submit x .normal]
  | .pool b => [b]
  | .conn _ | .resolve _ _ => []

theorem run_pool {as : List DialLabel} (h : run step d as = some e) :
    run ThreadPool.step d.pool (as.flatMap poolImage) = some e.pool := by
  refine Simulates.run_view Dialling.pool ?_ h
  intro d a e hstep
  cases step_spec hstep with
  | conn _ _ => rfl
  | connect _ hx =>
      rw [poolImage, run_singleton, ThreadPool.step, if_pos hx]
  | resolve _ => rfl
  | lose _ hp => rwa [poolImage, run_singleton]
  | pool _ hp => rwa [poolImage, run_singleton]

/-! ### The socket's part -/

/-- The socket as its own model has it, with the count of the lookups under way. -/
def view (d : Dialling) : Conn := { d.conn with resolving := d.lookups.length + d.lost.length }

def connImage : DialLabel → List ConnLabel
  | .conn a => [a]
  | .connect t _ => [.call t .connect]
  | .resolve _ addrs => [.resolved addrs]
  | .pool _ => []

theorem step_resolving {a : ConnLabel} (ha : a.isLookup = false) (c : Conn) (n : Nat) :
    Conn.step { c with resolving := n } a = (c.step a).map fun c => { c with resolving := n } := by
  cases a with
  | call t call =>
      have hu : Conn.inUser { c with resolving := n } t = c.inUser t := rfl
      have hne : call ≠ .connect := by rintro rfl; cases ha
      simp only [Conn.step, hu, if_neg hne]
      cases c.inUser t <;> rfl
  | ret t =>
      simp only [Conn.step]
      split <;> rfl
  | turn t k =>
      simp only [Conn.step]
      split
      · rfl
      · rw [Option.map_map]
        rfl
  | io h r =>
      simp only [Conn.step]
      split <;> rfl
  | resolved addrs => cases ha
  | deferred =>
      simp only [Conn.step]
      split <;> rfl

theorem length_lookups_erase {i task : Nat} (h : d.lookup i = some task) :
    (d.lookups.erase task).length + 1 = d.lookups.length :=
  List.length_erase_add_one (lookup_eq_some.mp h).2

theorem run_view {as : List DialLabel} (h : run step d as = some e) :
    run Conn.step d.view (as.flatMap connImage) = some e.view := by
  refine Simulates.run_view view ?_ h
  intro d a e hstep
  cases step_spec hstep with
  | conn ha hc =>
      rw [connImage, run_singleton, view, step_resolving ha, hc]
      rfl
  | @connect t x hu _ =>
      rw [connImage, run_singleton, Conn.step, if_pos (show d.view.inUser t = true from hu)]
      simp [view, Call.frames, Nat.add_right_comm]
  | @resolve i addrs task hl =>
      have hlen := length_lookups_erase hl
      have hpos : 0 < d.view.resolving := by simp only [view]; omega
      rw [connImage, run_singleton, Conn.step, if_pos hpos]
      simp only [view, Option.some.injEq, Conn.mk.injEq, true_and, and_true]
      omega
  | lose hl _ =>
      have hlen := length_lookups_erase hl
      simp only [connImage, run, view, List.length_cons, Option.some.injEq, Conn.mk.injEq, true_and, and_true]
      omega
  | pool _ _ => rfl

/-! ### Every lookup is handed over -/

def isConnect : DialLabel → Bool
  | .connect _ _ => true
  | _ => false

def isResolve : DialLabel → Bool
  | .resolve _ _ => true
  | _ => false

/-- What a step of the pool can do to the tasks that are counted and finished. -/
theorem pool_step_tasks {p q : ThreadPool} {b : PoolLabel} (h : p.step b = some q) :
    p.submitted ≤ q.submitted ∧ (finishedTasks q.log = finishedTasks p.log ∨
      ∃ i o task, b = .finish i o ∧ p.workers[i]? = some (.running task) ∧
        finishedTasks q.log = task :: finishedTasks p.log) := by
  cases ThreadPool.step_spec h with
  | submit _ _ _ => exact ⟨Nat.le_succ _, .inl rfl⟩
  | finish o hi _ => exact ⟨Nat.le_refl _, .inr ⟨_, o, _, rfl, hi, rfl⟩⟩
  | stop _ _ _ _ =>
      rw [ThreadPool.requestStop]
      split <;> exact ⟨Nat.le_refl _, .inl rfl⟩
  | notifyOne _ _ | notifyNone _ _ | wake _ | take _ _ | idle _ _ | destroy _ _ | join _ _ =>
      exact ⟨Nat.le_refl _, .inl rfl⟩

/-- The pool finishes only tasks that its workers run. -/
theorem pool_unfinished {p q : ThreadPool} {b : PoolLabel} {tasks : List Nat} (h : p.step b = some q)
    (hb : ∀ i o task, b = .finish i o → p.workers[i]? = some (.running task) → task ∉ tasks)
    (hun : ∀ task ∈ tasks, task ∉ finishedTasks p.log) : ∀ task ∈ tasks, task ∉ finishedTasks q.log := by
  intro t ht hfin
  rcases (pool_step_tasks h).2 with hf | ⟨i, o, task, hbi, hi, hf⟩ <;> rw [hf] at hfin
  · exact hun t ht hfin
  · rcases List.mem_cons.mp hfin with rfl | hfin
    · exact hb i o t hbi hi ht
    · exact hun t ht hfin

theorem finished_submitted {p : ThreadPool} (hp : p.OnePlace) {task : Nat} (hf : task ∈ finishedTasks p.log) :
    task < p.submitted := by
  have hone := hp task
  by_contra hge
  rw [if_neg hge, ThreadPool.places] at hone
  have := List.count_pos_iff.mpr hf
  omega

theorem run_counts {as : List DialLabel} (h : run step d as = some e) :
    d.lookups.length + d.lost.length + as.countP isConnect =
      as.countP isResolve + e.lost.length + e.lookups.length := by
  induction as generalizing d with
  | nil =>
      cases h
      simp only [List.countP_nil]
      omega
  | cons a as ih =>
      obtain ⟨r, hr, he⟩ := run_cons.mp h
      have hrest := ih he
      rw [List.countP_cons, List.countP_cons]
      cases step_spec hr with
      | resolve hl | lose hl _ =>
          have := length_lookups_erase hl
          simp only [isConnect, isResolve, Bool.false_eq_true, if_true, if_false, List.length_cons] at hrest ⊢
          omega
      | conn _ _ | connect _ _ | pool _ _ =>
          simp only [isConnect, isResolve, Bool.false_eq_true, if_true, if_false, List.length_cons] at hrest ⊢
          omega

/-- The lookups of a run: the tasks that `connect` has submitted, and those that have
deferred their result. -/
structure Lookups where
  dialled : List Nat := []
  deferred : List Nat := []
  deriving DecidableEq, Repr

def record (d : Dialling) (a : DialLabel) (g : Lookups) : Lookups :=
  match a with
  | .connect _ _ => { g with dialled := d.pool.submitted :: g.dialled }
  | .resolve i _ => { g with deferred := (d.lookup i).toList ++ g.deferred }
  | .conn _ | .pool _ => g

/-- Every lookup is in one place; one still to be handed over is an unfinished task of the
pool. -/
structure Placed (d : Dialling) (g : Lookups) : Prop where
  nodup : g.dialled.Nodup
  submitted : ∀ task ∈ g.dialled, task < d.pool.submitted
  perm : g.dialled.Perm (g.deferred ++ d.lost ++ d.lookups)
  unfinished : ∀ task ∈ d.lookups, task ∉ finishedTasks d.pool.log

section Placed

variable {g : Lookups}

theorem placed_start (c : Conn) (n : Nat) : Placed { conn := c, pool := .create n } {} :=
  ⟨List.nodup_nil, List.forall_mem_nil _, .nil, List.forall_mem_nil _⟩

theorem Placed.nodup_lookups (hg : d.Placed g) : d.lookups.Nodup :=
  (List.sublist_append_right _ _).nodup (hg.perm.nodup_iff.mp hg.nodup)

theorem Placed.submitted_lookups (hg : d.Placed g) {task : Nat} (ht : task ∈ d.lookups) : task < d.pool.submitted :=
  hg.submitted task (hg.perm.symm.subset (List.mem_append_right _ ht))

theorem Placed.submitted_step (hg : d.Placed g) {q : ThreadPool} {b : PoolLabel} (h : d.pool.step b = some q) :
    ∀ task ∈ g.dialled, task < q.submitted :=
  fun task ht => Nat.lt_of_lt_of_le (hg.submitted task ht) (pool_step_tasks h).1

theorem step_placed (hg : d.Placed g) (hp : d.pool.OnePlace) (h : d.step a = some e) :
    e.Placed (record d a g) ∧ e.pool.OnePlace := by
  cases step_spec h with
  | conn _ _ => exact ⟨⟨hg.nodup, hg.submitted, hg.perm, hg.unfinished⟩, hp⟩
  | @connect t x _ hx =>
      have hsub : d.pool.step (.submit x .normal) = some (d.pool.push x .normal) := by
        rw [ThreadPool.step, if_pos hx]
      refine ⟨⟨?_, ?_, ?_, ?_⟩, ThreadPool.step_onePlace hp hsub⟩
      · exact List.nodup_cons.mpr ⟨fun hm => Nat.lt_irrefl _ (hg.submitted _ hm), hg.nodup⟩
      · exact List.forall_mem_cons.mpr ⟨Nat.lt_succ_self _, hg.submitted_step hsub⟩
      · exact (hg.perm.cons _).trans List.perm_middle.symm
      · exact List.forall_mem_cons.mpr
          ⟨fun hf => Nat.lt_irrefl _ (finished_submitted hp hf), pool_unfinished hsub (by simp) hg.unfinished⟩
  | @resolve i addrs task hl =>
      refine ⟨⟨hg.nodup, hg.submitted, ?_, fun t ht => hg.unfinished t (List.mem_of_mem_erase ht)⟩, hp⟩
      rw [record, hl]
      have herase := List.perm_cons_erase (lookup_eq_some.mp hl).2
      exact hg.perm.trans ((herase.append_left _).trans List.perm_middle)
  | @lose i o task p hl hq =>
      obtain ⟨hi, hm⟩ := lookup_eq_some.mp hl
      refine ⟨⟨hg.nodup, hg.submitted_step hq, ?_, ?_⟩, ThreadPool.step_onePlace hp hq⟩
      · refine hg.perm.trans (((List.perm_cons_erase hm).append_left _).trans ?_)
        rw [List.append_assoc, List.append_assoc]
        exact List.perm_middle.append_left _
      · apply pool_unfinished hq _ fun t ht => hg.unfinished t (List.mem_of_mem_erase ht)
        -- Worker `i` still runs the task, which is no longer among the lookups.
        rintro j o' task' ⟨⟩ hi'
        cases Option.some.inj (hi.symm.trans hi')
        exact hg.nodup_lookups.not_mem_erase
  | pool hb hq =>
      refine ⟨⟨hg.nodup, hg.submitted_step hq, hg.perm, ?_⟩, ThreadPool.step_onePlace hp hq⟩
      apply pool_unfinished hq _ hg.unfinished
      intro i o task hbi hi hm
      cases (hb i o hbi).symm.trans (lookup_eq_some.mpr ⟨hi, hm⟩)

end Placed

/-- The labels of the pool's threads, the `defer` of a lookup among them. -/
def isOwn : DialLabel → Bool
  | .pool b => ThreadPool.isOwn b
  | .resolve _ _ => true
  | .conn _ | .connect _ _ => false

/-- A pool with a lookup to hand over is not quiet. -/
theorem quiet_pool (hq : ∀ a, isOwn a = true → d.step a = none) {b : PoolLabel} (hb : ThreadPool.isOwn b = true) :
    d.pool.step b = none := by
  have hlook (i : Nat) : d.lookup i = none := by
    have := hq (.resolve i []) rfl
    rwa [step, Option.map_eq_none_iff] at this
  have hpool := hq (.pool b) hb
  cases b with
  | finish i o =>
      rw [step, hlook i] at hpool
      exact Option.map_eq_none_iff.mp hpool
  | submit _ _ | wake _ | destroy | stop _ | join _ => cases hb
  | notify _ _ | turn _ => exact Option.map_eq_none_iff.mp hpool

def lookupsOf (c : Conn) (n : Nat) (as : List DialLabel) : Lookups :=
  history step record { conn := c, pool := .create n } as {}

/-- `connect` through the pool. Whatever the threads do, the socket moves as its own model
allows, with the lookups under way for its count; the task of each call of `connect` has
deferred its result, once, or has thrown, or waits; and where the pool's threads cannot go
on none waits. -/
theorem connect_hands_over {c : Conn} {n : Nat} {as : List DialLabel} (hc : Conn.Initial c)
    (h : run step { conn := c, pool := .create n } as = some d) :
    run Conn.step c (as.flatMap connImage) = some { d.conn with resolving := d.lookups.length + d.lost.length } ∧
      as.countP isConnect = as.countP isResolve + d.lost.length + d.lookups.length ∧
      (lookupsOf c n as).dialled.Nodup ∧
      (lookupsOf c n as).dialled.Perm ((lookupsOf c n as).deferred ++ d.lost ++ d.lookups) ∧
      ((∀ a, isOwn a = true → d.step a = none) → d.lookups = []) := by
  obtain ⟨hplaced, -⟩ : d.Placed (lookupsOf c n as) ∧ d.pool.OnePlace := by
    have hstep : ∀ d g a e, Placed d g ∧ d.pool.OnePlace → True → d.step a = some e →
        Placed e (record d a g) ∧ e.pool.OnePlace :=
      fun _ _ _ _ hi _ hs => step_placed hi.1 hi.2 hs
    exact history_invariant hstep ⟨placed_start c n, ThreadPool.onePlace_create n⟩ (Along.trivial _ _) h
  refine ⟨?_, ?_, hplaced.nodup, hplaced.perm, ?_⟩
  · have hv := run_view h
    have hstart : view { conn := c, pool := .create n } = c := by cases hc <;> rfl
    rwa [hstart] at hv
  · have := run_counts h
    simp only [List.length_nil] at this
    omega
  · intro hq
    have hp := run_pool h
    obtain ⟨hn, hidle⟩ := ThreadPool.quiet fun b hb => quiet_pool hq hb
    have hqueued := ThreadPool.quiet_queued (ThreadPool.reachable_wakeful hp) (ThreadPool.reachable_teardown hp) hn hidle
    rw [List.eq_nil_iff_forall_not_mem]
    intro task ht
    have hone := ThreadPool.finished_once hp hqueued hidle (hplaced.submitted_lookups ht)
    exact hplaced.unfinished task ht (List.count_pos_iff.mp (by omega))

/-- A socket dials, the pool's only worker resolves the name, and the loop opens a socket. -/
def dialledRun : List DialLabel :=
  [.connect 1 (.outside 1), .pool (.turn 0), .pool (.notify (.outside 1) none),
    .resolve 0 [{ address := "192.0.2.1", port := 80, family := 2 }], .pool (.finish 0 .returned), .pool (.turn 0),
    .conn .deferred, .conn (.turn 0 (.opened 6))]

theorem dialledRun_hands_over :
    ∃ d, run step { conn := .create 3, pool := .create 1 } dialledRun = some d ∧
      dialledRun.countP isConnect = dialledRun.countP isResolve + d.lost.length + d.lookups.length ∧ d.lookups = [] ∧
      (lookupsOf (.create 3) 1 dialledRun).dialled.Perm [0] := by
  have hall := connect_hands_over (n := 1) (.created 3)
    (h := (rfl : run step { conn := .create 3, pool := .create 1 } dialledRun = _))
  exact ⟨_, rfl, hall.2.1, rfl, hall.2.2.2.1⟩

end Dialling
end CxNetworking.Tcp
