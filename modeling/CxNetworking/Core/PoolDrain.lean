import CxNetworking.Core.ThreadPool
import Mathlib.Algebra.GroupWithZero.Nat
import Mathlib.Data.List.Perm.Subperm

/-! The pool runs dry: no wakeup is lost, so a pool in which nothing can go on has run every
task, and its destructor returns only after the last one. -/
namespace CxNetworking.Core.ThreadPool

open Execution

variable {s t : ThreadPool} {a : PoolLabel} {n : Nat} {as : List PoolLabel}

def readyCount (s : ThreadPool) : Nat := s.workers.countP Worker.isReady

/-! ### No wakeup is lost -/

/-- While a worker sleeps, each queued task has a thread that is still to look at the queues
or to call `notify_one`. -/
def Wakeful (s : ThreadPool) : Prop :=
  .asleep ∈ s.workers → (queued s.queues).length ≤ s.notifying.length + s.readyCount

theorem length_queued_push (s : ThreadPool) (x : Submitter) (p : Priority) :
    (queued (s.push x p).queues).length = (queued s.queues).length + 1 := by
  have hu := (queued_update s.queues p (s.queues p ++ [s.submitted])).length_eq
  simp only [List.length_append, List.length_singleton] at hu
  simp only [push]
  omega

theorem length_queued_dequeue {queues : Priority → List Nat} {p : Priority} {task : Nat}
    (h : dequeueHighest s.queues Priority.all = some (p, task, queues)) :
    (queued queues).length + 1 = (queued s.queues).length :=
  (queued_dequeue h).length_eq

theorem readyCount_setWorker {i : Nat} {old : Worker} (h : s.workers[i]? = some old) (new : Worker) :
    (s.setWorker i new).readyCount + old.isReady.toNat = s.readyCount + new.isReady.toNat :=
  countP_setWorker h new

theorem asleep_of_setWorker {i : Nat} {w : Worker} (hw : w ≠ .asleep)
    (h : .asleep ∈ (s.setWorker i w).workers) : .asleep ∈ s.workers := by
  rcases List.mem_or_eq_of_mem_set h with h | h
  · exact h
  · exact absurd h.symm hw

theorem Wakeful.ready {i : Nat} {old : Worker} (hs : s.Wakeful) (hi : s.workers[i]? = some old)
    (hold : old.isReady = false) (ha : .asleep ∈ (s.setWorker i .ready).workers) :
    (queued s.queues).length + 1 ≤ s.notifying.length + (s.setWorker i .ready).readyCount := by
  have hw := hs (asleep_of_setWorker (by decide) ha)
  have hr := readyCount_setWorker hi .ready
  rw [hold] at hr
  simp only [Worker.isReady, Bool.toNat_false, Bool.toNat_true] at hr
  omega

theorem step_wakeful (hs : s.Wakeful) (h : s.step a = some t) : t.Wakeful := by
  cases step_spec h with
  | submit x p _ =>
      intro ha
      have hw := hs ha
      rw [length_queued_push]
      change _ ≤ (s.notifying.length + 1) + s.readyCount
      omega
  | @notifyOne x i hx hi =>
      intro ha
      have hw := hs.ready hi rfl ha
      have hl := List.length_erase_add_one hx
      change (queued s.queues).length ≤ (s.notifying.erase x).length + (s.setWorker i .ready).readyCount
      omega
  | notifyNone _ hn => exact fun ha => absurd ha hn
  | wake hi => exact fun ha => Nat.le_of_succ_le (hs.ready hi rfl ha)
  | @take i p task queues hi hd =>
      intro ha
      have hw := hs (asleep_of_setWorker (w := .running task) nofun ha)
      have hr := readyCount_setWorker hi (.running task)
      have hq := length_queued_dequeue hd
      simp only [Worker.isReady, Bool.toNat_false, Bool.toNat_true] at hr
      change (queued queues).length ≤ s.notifying.length + (s.setWorker i (.running task)).readyCount
      omega
  | idle _ hp =>
      intro _
      change (queued s.queues).length ≤ _
      rw [hasPending_false.mp hp]
      exact Nat.zero_le _
  | finish o hi _ => exact fun ha => Nat.le_of_succ_le (hs.ready hi rfl ha)
  | destroy _ _ => exact hs
  | stop _ _ _ _ =>
      rw [requestStop]
      split
      next hi => exact fun ha => Nat.le_of_succ_le (hs.ready hi rfl ha)
      next => exact hs
  | join _ _ => exact hs

/-! ### The number of steps -/

/-- A worker that is ready looks at the queues once, and one that runs a task becomes ready
after it. -/
def load (workers : List Worker) : Nat := workers.countP Worker.isReady + 2 * workers.countP Worker.isRunning

def weight : Worker → Nat
  | .ready => 1
  | .running _ => 2
  | .asleep | .exited => 0

theorem load_set {workers : List Worker} {i : Nat} {old : Worker} (h : workers[i]? = some old) (new : Worker) :
    load (workers.set i new) + weight old = load workers + weight new := by
  have hr := countP_set_add (f := Worker.isReady) h new
  have hn := countP_set_add (f := Worker.isRunning) h new
  have hweight (w : Worker) : weight w = w.isReady.toNat + 2 * w.isRunning.toNat := by cases w <;> rfl
  rw [load, load, hweight, hweight]
  omega

def work (s : ThreadPool) : Nat := load s.workers + 2 * (s.notifying.length + (queued s.queues).length)

def torn (s : ThreadPool) : Nat := 2 * s.stops.length + s.joined.length + s.destroying.toNat

def cost : PoolLabel → Nat
  | .submit _ _ => 5
  | .wake _ => 2
  | _ => 0

theorem step_work (h : s.step a = some t) : t.work + s.torn + 1 ≤ s.work + t.torn + cost a := by
  cases step_spec h with
  | submit x p _ =>
      have hq := length_queued_push s x p
      simp only [work, torn, cost, hq]
      simp only [push, List.length_cons]
      omega
  | notifyOne hx hi =>
      have hl := List.length_erase_add_one hx
      have hw := load_set hi .ready
      simp only [work, torn, cost, setWorker]
      simp only [weight] at hw
      omega
  | notifyNone hx _ =>
      have hl := List.length_erase_add_one hx
      simp only [work, torn, cost]
      omega
  | wake hi =>
      have hw := load_set hi .ready
      simp only [work, torn, cost, setWorker]
      simp only [weight] at hw
      omega
  | @take i p task queues hi hd =>
      have hq := length_queued_dequeue hd
      have hw := load_set hi (.running task)
      simp only [work, torn, cost, setWorker]
      simp only [weight] at hw
      omega
  | @idle i hi _ =>
      have hw := load_set hi (if i ∈ s.stops then .exited else .asleep)
      have hz : weight (if i ∈ s.stops then .exited else .asleep) = 0 := by split <;> rfl
      simp only [work, torn, cost, setWorker]
      rw [hz] at hw
      simp only [weight] at hw
      omega
  | finish o hi _ =>
      have hw := load_set hi .ready
      simp only [work, torn, cost, finish, setWorker]
      simp only [weight] at hw
      omega
  | destroy hd _ =>
      simp only [work, torn, cost, hd, Bool.toNat_false, Bool.toNat_true]
      omega
  | stop _ _ _ _ =>
      rw [requestStop]
      split
      next hi =>
        have hw := load_set hi .ready
        simp only [work, torn, cost, setWorker, List.length_cons]
        simp only [weight] at hw
        omega
      next =>
        simp only [work, torn, cost, List.length_cons]
        omega
  | join _ _ =>
      simp only [work, torn, cost, List.length_cons]
      omega

theorem run_work (h : run step s as = some t) : as.length + t.work + s.torn ≤ s.work + t.torn + (as.map cost).sum := by
  induction as generalizing s with
  | nil => cases h; simp
  | cons a as ih =>
      obtain ⟨r, hr, ht⟩ := run_cons.mp h
      have h1 := step_work hr
      have h2 := ih ht
      simp only [List.length_cons, List.map_cons, List.sum_cons]
      omega

/-! ### The destructor -/

/-- The order of the destructor: one `jthread` after the other is asked to stop and joined,
and a worker that was asked does not sleep. -/
structure Teardown (s : ThreadPool) : Prop where
  populated : 0 < s.workers.length
  exited : ∀ i, s.workers[i]? = some .exited → i ∈ s.stops
  stopped : ∀ i ∈ s.stops, s.destroying = true ∧ i < s.workers.length ∧ s.workers[i]? ≠ some .asleep
  nodup : s.stops.Nodup
  order : s.stops = s.joined ∨ ∃ i, s.stops = i :: s.joined
  joined : ∀ i ∈ s.joined, s.workers[i]? = some .exited
  inside : ∀ x ∈ s.notifying, s.hosts x = true
  emptied : (∀ w ∈ s.workers, w = .exited) → queued s.queues = []

theorem teardown_create (n : Nat) : (create n).Teardown where
  populated := by simp only [create, List.length_replicate]; omega
  exited := by simp [create, List.getElem?_replicate]
  stopped := by simp [create]
  nodup := by simp [create]
  order := by simp [create]
  joined := by simp [create]
  inside := by simp [create]
  emptied := by simp [create]

theorem hosts_setWorker {i : Nat} {old new : Worker} {x : Submitter} (hi : s.workers[i]? = some old)
    (hx : s.hosts x = true) (ha : old.isRunning = true → x ≠ .worker i) : (s.setWorker i new).hosts x = true := by
  cases x with
  | outside _ => exact hx
  | worker j =>
      have hij : i ≠ j := by
        rintro rfl
        simp only [hosts, hi, Option.any_some] at hx
        exact ha hx rfl
      simpa only [hosts, setWorker, List.getElem?_set_ne hij] using hx

/-- A worker that is neither asked to stop nor has returned may do anything but return. -/
theorem Teardown.setWorker {i : Nat} {old : Worker} (hs : s.Teardown) (hi : s.workers[i]? = some old) (new : Worker)
    (hold : old ≠ .exited) (hexit : new = .exited → i ∈ s.stops ∧ queued s.queues = [])
    (hsleep : new = .asleep → i ∉ s.stops) (hin : old.isRunning = true → .worker i ∉ s.notifying) :
    (s.setWorker i new).Teardown := by
  have hlen : i < s.workers.length := (List.getElem?_eq_some_iff.mp hi).1
  have hget (j : Nat) : (s.setWorker i new).workers[j]? = if i = j then some new else s.workers[j]? := by
    simp [ThreadPool.setWorker, List.getElem?_set, hlen]
  constructor
  · simpa [ThreadPool.setWorker] using hs.populated
  · intro j hj
    rw [hget] at hj
    split at hj
    next he => subst he; exact (hexit (Option.some.inj hj)).1
    next => exact hs.exited j hj
  · intro j hj
    obtain ⟨hd, hl, ha⟩ := hs.stopped j hj
    refine ⟨hd, by simpa [ThreadPool.setWorker] using hl, ?_⟩
    rw [hget]
    split
    next he => subst he; exact fun h => hsleep (Option.some.inj h) hj
    next => exact ha
  · exact hs.nodup
  · exact hs.order
  · intro j hj
    have hx := hs.joined j hj
    rw [hget, if_neg]
    · exact hx
    · rintro rfl
      exact hold (Option.some.inj (hi.symm.trans hx))
  · intro x hx
    exact hosts_setWorker hi (hs.inside x hx) fun hr he => hin hr (he ▸ hx)
  · intro hall
    have hnew : new = .exited := hall new (List.mem_set hlen _)
    exact (hexit hnew).2

theorem Teardown.stop {i : Nat} (hs : s.Teardown) (hd : s.destroying = true) (hi : i < s.workers.length)
    (hni : i ∉ s.stops) (hlen : s.stops.length = s.joined.length) (ha : s.workers[i]? ≠ some .asleep) :
    Teardown { s with stops := i :: s.stops } := by
  refine { hs with exited := ?_, stopped := ?_, nodup := List.nodup_cons.mpr ⟨hni, hs.nodup⟩, order := ?_ }
  · exact fun j hj => List.mem_cons_of_mem i (hs.exited j hj)
  · exact List.forall_mem_cons.mpr ⟨⟨hd, hi, ha⟩, hs.stopped⟩
  · rcases hs.order with he | ⟨j, he⟩
    · exact .inr ⟨i, by rw [he]⟩
    · rw [he, List.length_cons] at hlen
      omega

theorem step_teardown (hs : s.Teardown) (h : s.step a = some t) : t.Teardown := by
  cases step_spec h with
  | submit x p hx =>
      rw [maySubmit, Bool.and_eq_true] at hx
      refine { hs with inside := ?_, emptied := ?_ }
      · exact List.forall_mem_cons.mpr ⟨hx.2, hs.inside⟩
      · -- The submitter keeps the pool alive: it runs on a worker, or no worker was asked to stop.
        intro hall
        exfalso
        have hout : ∀ i, i < s.workers.length → s.workers[i]? = some .exited := by
          intro i hi
          rw [List.getElem?_eq_getElem hi, hall _ (List.getElem_mem hi)]
        cases x with
        | outside _ =>
            have hd := (hs.stopped 0 (hs.exited 0 (hout 0 hs.populated))).1
            simp [hosts, hd] at hx
        | worker i =>
            obtain ⟨w, hw, hr⟩ := Option.any_eq_true .. |>.mp hx.2
            rw [hall w (List.mem_of_getElem? hw)] at hr
            cases hr
  | notifyOne hx hi =>
      have ht := hs.setWorker hi .ready nofun nofun nofun nofun
      exact { ht with inside := fun x hx => ht.inside x (List.mem_of_mem_erase hx) }
  | notifyNone hx _ => exact { hs with inside := fun x hx => hs.inside x (List.mem_of_mem_erase hx) }
  | wake hi => exact hs.setWorker hi .ready nofun nofun nofun nofun
  | @take i p task queues hi hd =>
      have ht := hs.setWorker hi (.running task) nofun nofun nofun nofun
      refine { ht with emptied := ?_ }
      intro hall
      cases hall (.running task) (List.mem_set (List.getElem?_eq_some_iff.mp hi).1 _)
  | @idle i hi hp =>
      apply hs.setWorker hi _ nofun
      · intro hn
        refine ⟨?_, hasPending_false.mp hp⟩
        by_contra hni
        rw [if_neg hni] at hn
        cases hn
      · intro hn hm
        rw [if_pos hm] at hn
        cases hn
      · nofun
  | finish o hi hn =>
      have ht := hs.setWorker hi .ready nofun nofun nofun fun _ => hn
      exact { ht with }
  | destroy hd hn =>
      refine { hs with stopped := fun i hi => ⟨rfl, (hs.stopped i hi).2⟩, inside := ?_ }
      intro x hx
      cases x with
      | outside _ => cases hn _ hx
      | worker i => exact hs.inside _ hx
  | @stop i hd hi hni hlen =>
      rw [requestStop]
      split
      next ha =>
        have ht := hs.setWorker ha .ready nofun nofun nofun nofun
        apply ht.stop hd (by simpa [ThreadPool.setWorker] using hi) hni hlen
        simp [ThreadPool.setWorker, hi]
      next ha => exact hs.stop hd hi hni hlen ha
  | @join i hst hi =>
      refine { hs with order := .inl hst, joined := ?_ }
      exact List.forall_mem_cons.mpr ⟨hi, hs.joined⟩

theorem step_length (h : s.step a = some t) : t.workers.length = s.workers.length := by
  cases step_spec h with
  | stop _ _ _ _ =>
      rw [requestStop]
      split
      · exact List.length_set
      · rfl
  | submit _ _ _ | notifyNone _ _ | destroy _ _ | join _ _ => rfl
  | notifyOne _ _ | wake _ | take _ _ | idle _ _ | finish _ _ _ => exact List.length_set

theorem reachable_length (h : run step (create n) as = some s) : s.workers.length = max 1 n :=
  run_invariant (I := fun s => s.workers.length = max 1 n) (fun _ _ _ hi hs => (step_length hs).trans hi)
    List.length_replicate h

theorem Teardown.joined_suffix (hs : s.Teardown) : s.joined <:+ s.stops := by
  rcases hs.order with he | ⟨i, he⟩
  · exact he ▸ List.suffix_rfl
  · rw [he]
    exact List.suffix_cons i s.joined

theorem Teardown.stops_subperm (hs : s.Teardown) : s.stops.Subperm (List.range s.workers.length) :=
  hs.nodup.subperm fun i hi => List.mem_range.mpr (hs.stopped i hi).2.1

theorem Teardown.torn_le (hs : s.Teardown) : s.torn ≤ 3 * s.workers.length + 1 := by
  have hstops := hs.stops_subperm.length_le
  have hjoined := hs.joined_suffix.length_le
  have hd := Bool.toNat_le s.destroying
  rw [List.length_range] at hstops
  simp only [torn]
  omega

theorem Teardown.all_exited (hs : s.Teardown) (hall : s.joined.length = s.workers.length) :
    ∀ w ∈ s.workers, w = .exited := by
  have hsub : s.joined.Subperm (List.range s.workers.length) :=
    hs.joined_suffix.sublist.subperm.trans hs.stops_subperm
  have hperm := hsub.perm_of_length_le (Nat.le_of_eq (List.length_range.trans hall.symm))
  intro w hw
  obtain ⟨i, hi⟩ := List.mem_iff_getElem?.mp hw
  have hmem := hperm.mem_iff.mpr (List.mem_range.mpr (List.getElem?_eq_some_iff.mp hi).1)
  exact Option.some.inj (hi.symm.trans (hs.joined i hmem))

/-! ### Quiet pools -/

/-- The labels of the pool's own threads: an owed `notify_one`, a worker's turn, the end of a
task. -/
def isOwn : PoolLabel → Bool
  | .notify _ _ | .turn _ | .finish _ _ => true
  | _ => false

theorem turn_isSome (s : ThreadPool) (i : Nat) : (s.turn i).isSome := by
  rw [turn]
  split
  next hp =>
    obtain ⟨p, hp, hq⟩ := List.any_eq_true.mp hp
    have hne : s.queues p ≠ [] := by simpa using hq
    rw [Option.isSome_map]
    exact dequeueHighest_isSome hp hne
  next => rfl

/-- Where none of the pool's own threads can go on, no call of `submit` is under way and
every worker sleeps or has returned. -/
theorem quiet (hq : ∀ a, isOwn a = true → s.step a = none) :
    s.notifying = [] ∧ ∀ w ∈ s.workers, w = .asleep ∨ w = .exited := by
  have hn : s.notifying = [] := by
    by_contra hne
    obtain ⟨x, hx⟩ := List.exists_mem_of_ne_nil _ hne
    by_cases ha : Worker.asleep ∈ s.workers
    · obtain ⟨i, hi⟩ := List.mem_iff_getElem?.mp ha
      have := hq (.notify x (some i)) rfl
      simp [step, hx, hi] at this
    · have := hq (.notify x none) rfl
      simp [step, hx, ha] at this
  refine ⟨hn, ?_⟩
  intro w hw
  obtain ⟨i, hi⟩ := List.mem_iff_getElem?.mp hw
  cases w with
  | asleep => exact .inl rfl
  | exited => exact .inr rfl
  | ready =>
      have ht := hq (.turn i) rfl
      rw [step, if_pos hi] at ht
      have := turn_isSome s i
      rw [ht] at this
      cases this
  | running task =>
      have := hq (.finish i .returned) rfl
      simp [step, hi, hn] at this

theorem wakeful_create (n : Nat) : (create n).Wakeful := by
  intro h
  simp [create] at h

theorem reachable_wakeful (h : run step (create n) as = some s) : s.Wakeful :=
  run_invariant (fun _ _ _ hi hs => step_wakeful hi hs) (wakeful_create n) h

theorem reachable_teardown (h : run step (create n) as = some s) : s.Teardown :=
  run_invariant (fun _ _ _ hi hs => step_teardown hi hs) (teardown_create n) h

/-- A quiet pool has nothing queued: a sleeper would have been woken, and the last worker
to return found the queues empty. -/
theorem quiet_queued (hw : s.Wakeful) (ht : s.Teardown) (hn : s.notifying = [])
    (hq : ∀ w ∈ s.workers, w = .asleep ∨ w = .exited) : queued s.queues = [] := by
  by_cases ha : Worker.asleep ∈ s.workers
  · have hr : s.readyCount = 0 := by
      apply List.countP_eq_zero.mpr
      intro w hw
      rcases hq w hw with rfl | rfl <;> decide
    have := hw ha
    rw [hn, hr] at this
    exact List.length_eq_zero_iff.mp (Nat.le_zero.mp this)
  · apply ht.emptied
    intro w hw
    rcases hq w hw with rfl | rfl
    · exact absurd hw ha
    · rfl

/-- With nothing queued and nothing running, every submitted task has been run once. -/
theorem finished_once (h : run step (create n) as = some s) (hq : queued s.queues = [])
    (hidle : ∀ w ∈ s.workers, w = .asleep ∨ w = .exited) {task : Nat} (hlt : task < s.submitted) :
    (finishedTasks s.log).count task = 1 := by
  have hone := run_invariant (fun _ _ _ hi hs => step_onePlace hi hs) (onePlace_create n) h task
  have hr : s.workers.countP (Worker.runs task) = 0 := by
    apply List.countP_eq_zero.mpr
    intro w hw
    rcases hidle w hw with rfl | rfl <;> exact Bool.false_ne_true
  rw [places, hq, hr, if_pos hlt] at hone
  simpa using hone

theorem work_create (n : Nat) : (create n).work = max 1 n := by
  simp [work, create, load, queued, Priority.all, List.countP_replicate, Worker.isReady, Worker.isRunning]

/-- The pool runs dry. Its threads take a bounded number of steps for each `submit` and each
spurious wakeup, and where none of them can go on every submitted task has been run exactly
once: no task waits in a queue for a worker that sleeps. -/
theorem runs_dry (h : run step (create n) as = some s) :
    as.length ≤ 4 * max 1 n + 1 + (as.map cost).sum ∧
      ((∀ a, isOwn a = true → s.step a = none) →
        ∀ task < s.submitted, (finishedTasks s.log).count task = 1) := by
  have ht := reachable_teardown h
  constructor
  · have hr := run_work h
    have htorn := ht.torn_le
    rw [work_create] at hr
    rw [reachable_length h] at htorn
    omega
  · intro hq task hlt
    obtain ⟨hn, hidle⟩ := quiet hq
    exact finished_once h (quiet_queued (reachable_wakeful h) ht hn hidle) hidle hlt

def wokenRun : List PoolLabel :=
  [.turn 0, .submit (.outside 7) .normal, .notify (.outside 7) (some 0), .turn 0, .finish 0 .returned, .turn 0]

theorem wokenRun_dry :
    ∃ s, run step (create 1) wokenRun = some s ∧ s.submitted = 1 ∧ (finishedTasks s.log).count 0 = 1 := by
  refine ⟨_, rfl, rfl, ?_⟩
  apply (runs_dry (n := 1) (h := (rfl : run step (create 1) wokenRun = _))).2
  · intro a ha
    match a with
    | .notify x none => rfl
    | .notify x (some i) => rfl
    | .turn 0 => rfl
    | .turn (i + 1) => rfl
    | .finish 0 o => rfl
    | .finish (i + 1) o => rfl
  · decide

/-- The destructor runs everything that was submitted, and it does not hang: while a thread
is still to be joined a worker can go on, or the next thread can be asked to stop or be
joined, and the bound on the number of steps of a run holds of these steps too. -/
theorem destructor_drains (h : run step (create n) as = some s) (hd : s.destroying = true) :
    (s.joined.length = s.workers.length → ∀ task < s.submitted, (finishedTasks s.log).count task = 1) ∧
      (s.joined.length < s.workers.length →
        ∃ a, (isOwn a = true ∨ ∃ i, a = .stop i ∨ a = .join i) ∧ (s.step a).isSome) := by
  have ht := reachable_teardown h
  constructor
  · intro hall task hlt
    have hex := ht.all_exited hall
    exact finished_once h (ht.emptied hex) (fun w hw => .inr (hex w hw)) hlt
  · intro hleft
    by_cases hq : ∀ a, isOwn a = true → s.step a = none
    · obtain ⟨-, hidle⟩ := quiet hq
      rcases ht.order with he | ⟨i, he⟩
      · -- The next thread is one that was not asked to stop yet.
        have hex : ∃ i, i < s.workers.length ∧ i ∉ s.stops := by
          by_contra hno
          push Not at hno
          have hsub : List.range s.workers.length ⊆ s.stops := fun i hi => hno i (List.mem_range.mp hi)
          have hle := (List.nodup_range.subperm hsub).length_le
          rw [List.length_range, he] at hle
          omega
        obtain ⟨i, hi, hni⟩ := hex
        refine ⟨.stop i, .inr ⟨i, .inl rfl⟩, ?_⟩
        rw [step, if_pos ⟨hd, hi, hni, by rw [he]⟩]
        rfl
      · -- The thread that was asked last is not asleep, so it has returned.
        have hmem : i ∈ s.stops := by rw [he]; exact List.mem_cons_self
        obtain ⟨-, hi, hna⟩ := ht.stopped i hmem
        have hexit : s.workers[i]? = some .exited := by
          rw [List.getElem?_eq_getElem hi] at hna ⊢
          rcases hidle _ (List.getElem_mem hi) with hw | hw
          · exact absurd (congrArg some hw) hna
          · rw [hw]
        refine ⟨.join i, .inr ⟨i, .inr rfl⟩, ?_⟩
        rw [step, if_pos ⟨he, hexit⟩]
        rfl
    · push Not at hq
      obtain ⟨a, ha, hs⟩ := hq
      exact ⟨a, .inl ha, Option.isSome_iff_ne_none.mpr hs⟩

/-- The pool is destroyed with a task queued, which submits another one. -/
def nestedRun : List PoolLabel :=
  [.submit (.outside 0) .low, .notify (.outside 0) none, .destroy, .stop 0, .turn 0, .submit (.worker 0) .high,
    .notify (.worker 0) none, .finish 0 .returned, .turn 0, .finish 0 .threwOther, .turn 0, .join 0]

theorem nestedRun_drains :
    ∃ s, run step (create 1) nestedRun = some s ∧ s.destroying = true ∧ s.joined.length = s.workers.length ∧
      s.submitted = 2 ∧ ∀ task < s.submitted, (finishedTasks s.log).count task = 1 :=
  ⟨_, rfl, rfl, rfl, rfl,
    (destructor_drains (n := 1) (h := (rfl : run step (create 1) nestedRun = _)) rfl).1 rfl⟩

end CxNetworking.Core.ThreadPool
