import Mathlib.Algebra.GroupWithZero.Nat
import Mathlib.Data.List.Basic
import Mathlib.Data.List.TakeWhile

/-! The test runner. `run_all` goes through the registered groups; a case that asks for a
process of its own is run by a child, which is the same program, started with `--run` and
the names of group and case in one argument. -/
namespace CxNetworking.Testing

abbrev Text := List Char

structure Failure where
  line : Nat
  description : Text
  deriving DecidableEq, Repr

/-- How a process ended, as `waitpid` tells it. -/
inductive Status where
  | exited (code : UInt8)
  | signalled (signal : Nat)
  deriving DecidableEq, Repr

namespace Status

/-- `std::terminate` ends in it. -/
def abort : Status := .signalled 6

def crashed : Status → Bool
  | .signalled _ => true
  | .exited _ => false

def exitedCleanly : Status → Bool
  | .exited code => code == 0
  | .signalled _ => false

end Status

/-- What the body of a case comes to, with the state that the process is left in: it returns,
throws an exception (with its `what`) or another value, or ends the process. -/
inductive Outcome (σ : Type) where
  | returned (failures : List Failure) (s : σ)
  | threw (what : Option Text) (failures : List Failure) (s : σ)
  | died (status : Status)

/-- A case; `expect_crash()` sets both flags. -/
structure TestCase (σ : Type) where
  name : Text
  body : σ → Outcome σ
  isolated : Bool := false
  expectCrash : Bool := false
  alone : expectCrash = true → isolated = true := by decide

structure TestGroup (σ : Type) where
  name : Text
  cases : List (TestCase σ)

/-- Whether the child comes to run. -/
inductive Spawn where
  | started
  | execFailed
  | forkFailed
  deriving DecidableEq, Repr

/-- The program: its registry, the state a process starts in, and what becomes of the fork
for the case of a number. -/
structure Program (σ : Type) where
  groups : List (TestGroup σ)
  fresh : σ
  spawn : Nat → Spawn := fun _ => .started

inductive Line where
  | verdict (ok : Bool) (group case : Text)
  | failure (f : Failure)
  deriving DecidableEq, Repr

structure Tally (σ : Type) where
  state : σ
  total : Nat := 0
  passed : Nat := 0
  output : List Line := []

/-! ### The argument of a child -/

def npos : Nat := 2 ^ 64 - 1

/-- `find("::")`, with `none` for `npos`. -/
def findSeparator : Text → Option Nat
  | [] => none
  | x :: rest => if x = ':' ∧ rest.head? = some ':' then some 0 else (findSeparator rest).map (· + 1)

/-- `substr(pos)` throws behind the end. -/
def substr (t : Text) (pos : Nat) : Option Text := if pos ≤ t.length then some (t.drop pos) else none

/-- `std::format("{}::{}", group, case)`. -/
def combined (group case : Text) : Text := group ++ ':' :: ':' :: case

/-- What is left of a string behind `c_str()` and `execl`. -/
def cString (t : Text) : Text := t.takeWhile (· ≠ '\x00')

/-- The two names that a child makes of its argument; the position wraps around when there
is no separator. -/
def target (arg : Text) : Option (Text × Text) :=
  let separator := (findSeparator arg).getD npos
  (substr arg ((separator + 2) % 2 ^ 64)).map fun case => (arg.take separator, case)

def runFlag : Text := ['-', '-', 'r', 'u', 'n']

variable {σ : Type}

/-- How a child ends that runs the body: nothing catches what it throws. -/
def Outcome.status : Outcome σ → Status
  | .returned failures _ => .exited (if failures.isEmpty then 0 else 1)
  | .threw _ _ _ => .abort
  | .died status => status

/-- What `run_all` adds for an exception. -/
def uncaught : Option Text → Failure
  | some what => { line := 87, description := "uncaught exception: ".toList ++ what }
  | none => { line := 89, description := "uncaught non-exception value".toList }

def Tally.report (t : Tally σ) (s : σ) (group case : Text) (ok : Bool) (failures : List Failure) : Tally σ where
  state := s
  total := t.total + 1
  passed := t.passed + ok.toNat
  output := t.output ++ .verdict ok group case :: failures.map .failure

namespace Program

variable (p : Program σ)

def findCase (group case : Text) : Option (TestCase σ) :=
  p.groups.findSome? fun g => if g.name = group then g.cases.find? (·.name = case) else none

def runSingle (group case : Text) : Status :=
  match p.findCase group case with
  | some c => (c.body p.fresh).status
  | none => .exited 2

def runChild (arg : Text) : Status :=
  match target arg with
  | some (group, case) => p.runSingle group case
  | none => .abort

/-- `run_isolated` for the case of number `n`. When the fork fails, `waitpid` finds no child
and `status` stays zero. -/
def runIsolated (n : Nat) (group case : Text) (expectCrash : Bool) : Bool :=
  let status := match p.spawn n with
    | .started => p.runChild (cString (combined group case))
    | .execFailed => .exited 127
    | .forkFailed => .exited 0
  if expectCrash then status.crashed else status.exitedCleanly

/-- The body of the inner loop of `run_all`; a body that ends the process ends the runner. -/
def runCase (group : Text) (c : TestCase σ) (t : Tally σ) : Except Status (Tally σ) :=
  if c.isolated then .ok (t.report t.state group c.name (p.runIsolated t.total group c.name c.expectCrash) [])
  else match c.body t.state with
    | .returned failures s => .ok (t.report s group c.name failures.isEmpty failures)
    | .threw what failures s => .ok (t.report s group c.name false (failures ++ [uncaught what]))
    | .died status => .error status

def runCases (group : Text) : List (TestCase σ) → Tally σ → Except Status (Tally σ)
  | [], t => .ok t
  | c :: cases, t => (p.runCase group c t).bind (runCases group cases)

def runGroups : List (TestGroup σ) → Tally σ → Except Status (Tally σ)
  | [], t => .ok t
  | g :: groups, t => (p.runCases g.name g.cases t).bind (runGroups groups)

def everyCase : Status :=
  match p.runGroups p.groups { state := p.fresh } with
  | .ok t => .exited (if t.passed = t.total then 0 else 1)
  | .error status => status

/-- `run_all`, with the arguments behind the program's name. -/
def runAll (args : List Text) : Status :=
  match args with
  | [flag, arg] => if flag = runFlag then p.runChild arg else p.everyCase
  | _ => p.everyCase

end Program

/-! ### Which case a child runs -/

/-- A name that a child finds again in front of the separator: it has none, and does not end
in half of one. -/
def Plain (group : Text) : Prop := findSeparator (group ++ [':']) = none

instance (group : Text) : Decidable (Plain group) := inferInstanceAs (Decidable (_ = none))

theorem findSeparator_eq_none {t : Text} : findSeparator t = none ↔ ¬ [':', ':'] <:+: t := by
  induction t with
  | nil => simp [findSeparator]
  | cons x t ih =>
      have hhead : [':', ':'] <+: x :: t ↔ x = ':' ∧ t.head? = some ':' := by
        rw [List.cons_prefix_cons, List.singleton_prefix_iff_head?_eq_some, eq_comm]
      rw [findSeparator, List.infix_cons_iff, hhead, not_or, ← ih]
      split
      next hx => simp [hx]
      next hx => simp [hx]

theorem plain_iff {group : Text} : Plain group ↔ ¬ [':', ':'] <:+: group ∧ group.getLast? ≠ some ':' := by
  have hlast : [':', ':'] <:+ group ++ [':'] ↔ group.getLast? = some ':' := by
    rw [List.suffix_concat_iff, ← List.singleton_suffix_iff_getLast?_eq_some]
    constructor
    · rintro (h | ⟨t, ht, hs⟩)
      · cases h
      · cases List.append_cancel_right (show [':'] ++ [':'] = t ++ [':'] from ht)
        exact hs
    · exact fun h => .inr ⟨[':'], rfl, h⟩
  rw [Plain, findSeparator_eq_none, List.infix_concat_iff, hlast, not_or, and_comm]

/-- The separator behind a plain name is the first one; behind another name it is not. -/
theorem findSeparator_combined (group case : Text) :
    (Plain group ∧ findSeparator (combined group case) = some group.length) ∨
      (¬ Plain group ∧ ∃ k < group.length, findSeparator (combined group case) = some k) := by
  induction group with
  | nil => exact .inl ⟨rfl, rfl⟩
  | cons x group ih =>
      -- what follows `x` begins alike in both texts
      have hhead : (group ++ [':']).head? = (combined group case).head? := by
        cases group <;> rfl
      have hfind : findSeparator (combined (x :: group) case) =
          if x = ':' ∧ (group ++ [':']).head? = some ':' then some 0
          else (findSeparator (combined group case)).map (· + 1) := by
        rw [hhead]
        rfl
      have hplain : findSeparator (x :: group ++ [':']) =
          if x = ':' ∧ (group ++ [':']).head? = some ':' then some 0
          else (findSeparator (group ++ [':'])).map (· + 1) := rfl
      rw [Plain, hplain, hfind]
      split
      · exact .inr ⟨nofun, 0, Nat.zero_lt_succ _, rfl⟩
      · rw [Option.map_eq_none_iff]
        rcases ih with ⟨hp, hk⟩ | ⟨hp, k, hlt, hk⟩
        · exact .inl ⟨hp, by rw [hk]; rfl⟩
        · exact .inr ⟨hp, k + 1, Nat.succ_lt_succ hlt, by rw [hk]; rfl⟩

theorem cString_eq {t : Text} (h : '\x00' ∉ t) : cString t = t := by
  refine List.takeWhile_eq_self_iff.mpr fun x hx => decide_eq_true ?_
  rintro rfl
  exact h hx

theorem target_of_separator {arg : Text} {k : Nat} (hk : findSeparator arg = some k) (hlt : k + 2 ≤ arg.length)
    (hlen : arg.length < 2 ^ 64) : target arg = some (arg.take k, arg.drop (k + 2)) := by
  rw [target, hk, Option.getD_some, Nat.mod_eq_of_lt (by omega), substr, if_pos hlt]
  rfl

/-- The child's two names are the parent's exactly if the group's name is plain. Otherwise
it looks for a group by a shorter name. -/
theorem target_combined {group case : Text} (hlen : (combined group case).length < 2 ^ 64) :
    (Plain group ∧ target (combined group case) = some (group, case)) ∨
      (¬ Plain group ∧ ∃ k < group.length, ∃ case', target (combined group case) = some (group.take k, case')) := by
  have hsize : (combined group case).length = group.length + 2 + case.length := by
    simp [combined]
    omega
  rcases findSeparator_combined group case with ⟨hp, hk⟩ | ⟨hp, k, hlt, hk⟩
  · refine .inl ⟨hp, ?_⟩
    rw [target_of_separator hk (by omega) hlen]
    simp [combined]
  · refine .inr ⟨hp, k, hlt, (combined group case).drop (k + 2), ?_⟩
    rw [target_of_separator hk (by omega) hlen, combined, List.take_append_of_le_length (Nat.le_of_lt hlt)]

namespace Program

variable (p : Program σ)

/-- A case in a process of its own is found there exactly if the name of its group is plain:
the names that the child makes of its argument are those the parent put in. A group whose
name has a `::`, as a C++ scope has, is looked up by what is in front of it; if there is no
group of that name, the case fails whatever its body does, also one that is expected to
crash. -/
theorem child_finds_iff {group case : Text} (hlen : (combined group case).length < 2 ^ 64)
    (hzero : '\x00' ∉ combined group case) :
    (target (cString (combined group case)) = some (group, case) ↔ Plain group) ∧
      (¬ Plain group → (∀ g ∈ p.groups, ∀ k < group.length, g.name ≠ group.take k) →
        ∀ n crash, p.spawn n ≠ .forkFailed → p.runIsolated n group case crash = false) := by
  rw [cString_eq hzero]
  constructor
  · rcases target_combined hlen with ⟨hp, ht⟩ | ⟨hp, k, hlt, case', ht⟩
    · exact ⟨fun _ => hp, fun _ => ht⟩
    · refine ⟨fun he => ?_, fun hp' => absurd hp' hp⟩
      rw [ht, Option.some.injEq, Prod.mk.injEq] at he
      have := congrArg List.length he.1
      rw [List.length_take] at this
      omega
  · intro hp hother n crash hspawn
    rcases target_combined hlen with ⟨hp', -⟩ | ⟨-, k, hlt, case', ht⟩
    · exact absurd hp' hp
    · have hnone : p.findCase (group.take k) case' = none := by
        rw [findCase, List.findSome?_eq_none_iff]
        intro g hg
        exact if_neg (hother g hg k hlt)
      have hchild : p.runChild (cString (combined group case)) = .exited 2 := by
        simp only [cString_eq hzero, runChild, ht, runSingle, hnone]
      unfold runIsolated
      cases hs : p.spawn n with
      | started => cases crash <;> simp [hchild, Status.crashed, Status.exitedCleanly]
      | execFailed => cases crash <;> simp [Status.crashed, Status.exitedCleanly]
      | forkFailed => exact absurd hs hspawn

/-- The repository's own group `core::event_loop`, with one case in a process of its own. -/
def scopedProgram : Program Unit where
  groups := [{ name := "core::event_loop".toList
               cases := [{ name := "dies".toList, body := fun _ => .died .abort, isolated := true,
                           expectCrash := true }] }]
  fresh := ()

theorem scopedProgram_fails :
    scopedProgram.runIsolated 0 "core::event_loop".toList "dies".toList true = false := by
  refine (scopedProgram.child_finds_iff (by decide) (by decide)).2 (by decide) ?_ 0 true (by decide)
  decide

end Program

/-! ### The verdict -/

/-- The body came to an end without a failed check; in a process of its own it may also leave
by `exit(0)`. -/
def Outcome.succeeds : Outcome σ → Bool
  | .returned failures _ => failures.isEmpty
  | .threw _ _ _ => false
  | .died status => status == .exited 0

/-- The body ends its process abnormally. -/
def Outcome.crashes : Outcome σ → Bool
  | .returned _ _ => false
  | .threw _ _ _ => true
  | .died (.signalled _) => true
  | .died (.exited _) => false

def TestCase.expects (c : TestCase σ) (o : Outcome σ) : Bool := if c.expectCrash then o.crashes else o.succeeds

/-- What a case is for: the runner's state behind it, if it does what is expected of it. In a
process of its own it starts afresh and leaves that state alone. -/
def TestCase.meet (fresh : σ) (c : TestCase σ) (s : σ) : Option σ :=
  if c.isolated then if c.expects (c.body fresh) then some s else none
  else match c.body s with
    | .returned [] s' => some s'
    | _ => none

def meetAll (fresh : σ) : List (TestCase σ) → σ → Option σ
  | [], s => some s
  | c :: cases, s => (c.meet fresh s).bind (meetAll fresh cases)

theorem meetAll_append (fresh : σ) (cases cases' : List (TestCase σ)) (s : σ) :
    meetAll fresh (cases ++ cases') s = (meetAll fresh cases s).bind (meetAll fresh cases') := by
  induction cases generalizing s with
  | nil => rfl
  | cons c cases ih =>
      rw [List.cons_append, meetAll, meetAll, Option.bind_assoc]
      exact congrArg _ (funext ih)

theorem status_exitedCleanly (o : Outcome σ) : o.status.exitedCleanly = o.succeeds := by
  cases o with
  | returned failures s => cases failures <;> rfl
  | threw => rfl
  | died status =>
      cases status with
      | exited code =>
          simp only [Outcome.status, Status.exitedCleanly, Outcome.succeeds]
          rw [Bool.eq_iff_iff, beq_iff_eq, beq_iff_eq, Status.exited.injEq]
      | signalled => rfl

theorem status_crashed (o : Outcome σ) : o.status.crashed = o.crashes := by
  cases o with
  | died status => cases status <;> rfl
  | returned | threw => rfl

namespace Program

variable (p : Program σ)

/-- Children start, names fit into a string and an argument, an isolated case of a group with a plain name is
the first of its names, and no body leaves the runner by `exit(0)`. -/
structure Sound : Prop where
  started : ∀ n, p.spawn n = .started
  sizes : ∀ g ∈ p.groups, ∀ c ∈ g.cases, (combined g.name c.name).length < 2 ^ 64
  zeros : ∀ g ∈ p.groups, ∀ c ∈ g.cases, '\x00' ∉ combined g.name c.name
  plain : ∀ g ∈ p.groups, (∃ c ∈ g.cases, c.isolated = true) → Plain g.name
  first : ∀ g ∈ p.groups, ∀ c ∈ g.cases, c.isolated = true → p.findCase g.name c.name = some c
  stays : ∀ g ∈ p.groups, ∀ c ∈ g.cases, c.isolated = false → ∀ s, c.body s ≠ .died (.exited 0)

variable {p} {g : TestGroup σ} {c : TestCase σ} {t : Tally σ}

theorem runIsolated_eq (hp : p.Sound) (hg : g ∈ p.groups) (hc : c ∈ g.cases) (hi : c.isolated = true) (n : Nat) :
    p.runIsolated n g.name c.name c.expectCrash = c.expects (c.body p.fresh) := by
  have hplain : Plain g.name := hp.plain g hg ⟨c, hc, hi⟩
  have htarget : target (combined g.name c.name) = some (g.name, c.name) :=
    ((target_combined (hp.sizes g hg c hc)).resolve_right fun h => h.1 hplain).2
  simp only [runIsolated, hp.started n, cString_eq (hp.zeros g hg c hc), runChild, htarget, runSingle,
    hp.first g hg c hc hi, status_crashed, status_exitedCleanly, TestCase.expects]

/-- The run has counted a case that did not pass, or was ended otherwise than by `exit(0)`. -/
def Lags (r : Except Status (Tally σ)) : Prop :=
  (∃ t, r = .ok t ∧ t.passed < t.total) ∨ ∃ status, r = .error status ∧ status ≠ .exited 0

/-- The run has counted all cases as passed if they did what is expected of them. -/
def Agrees (r : Except Status (Tally σ)) : Option σ → Prop
  | some s => ∃ t, r = .ok t ∧ t.state = s ∧ t.passed = t.total
  | none => Lags r

theorem runCase_spec (hp : p.Sound) (hg : g ∈ p.groups) (hc : c ∈ g.cases) (t : Tally σ) :
    (∃ t', p.runCase g.name c t = .ok t' ∧ c.meet p.fresh t.state = some t'.state ∧
        t'.total = t.total + 1 ∧ t'.passed = t.passed + 1) ∨
      (c.meet p.fresh t.state = none ∧
        ((∃ t', p.runCase g.name c t = .ok t' ∧ t'.total = t.total + 1 ∧ t'.passed = t.passed) ∨
          ∃ status, p.runCase g.name c t = .error status ∧ status ≠ .exited 0)) := by
  cases hi : c.isolated with
  | true =>
      rw [runCase, if_pos hi, TestCase.meet, if_pos hi, runIsolated_eq hp hg hc hi]
      cases c.expects (c.body p.fresh) with
      | true => exact .inl ⟨_, rfl, rfl, rfl, rfl⟩
      | false => exact .inr ⟨rfl, .inl ⟨_, rfl, rfl, rfl⟩⟩
  | false =>
      rw [runCase, if_neg (by simp [hi]), TestCase.meet, if_neg (by simp [hi])]
      cases ho : c.body t.state with
      | returned failures s =>
          cases failures with
          | nil => exact .inl ⟨_, rfl, rfl, rfl, rfl⟩
          | cons f failures => exact .inr ⟨rfl, .inl ⟨_, rfl, rfl, rfl⟩⟩
      | threw what failures s => exact .inr ⟨rfl, .inl ⟨_, rfl, rfl, rfl⟩⟩
      | died status =>
          refine .inr ⟨rfl, .inr ⟨status, rfl, ?_⟩⟩
          rintro rfl
          exact hp.stays g hg c hc hi t.state ho

theorem runCases_lags (hp : p.Sound) (hg : g ∈ p.groups) {cases : List (TestCase σ)} (hsub : cases ⊆ g.cases)
    (ht : t.passed < t.total) : Lags (p.runCases g.name cases t) := by
  induction cases generalizing t with
  | nil => exact .inl ⟨t, rfl, ht⟩
  | cons c cases ih =>
      have hrest : cases ⊆ g.cases := fun _ hx => hsub (List.mem_cons_of_mem _ hx)
      rw [runCases]
      rcases runCase_spec hp hg (hsub List.mem_cons_self) t with
        ⟨t', hr, -, htotal, hpassed⟩ | ⟨-, ⟨t', hr, htotal, hpassed⟩ | ⟨status, hr, hne⟩⟩ <;> rw [hr]
      · exact ih hrest (by omega)
      · exact ih hrest (by omega)
      · exact .inr ⟨status, rfl, hne⟩

theorem runCases_agrees (hp : p.Sound) (hg : g ∈ p.groups) {cases : List (TestCase σ)} (hsub : cases ⊆ g.cases)
    (ht : t.passed = t.total) : Agrees (p.runCases g.name cases t) (meetAll p.fresh cases t.state) := by
  induction cases generalizing t with
  | nil => exact ⟨t, rfl, rfl, ht⟩
  | cons c cases ih =>
      have hrest : cases ⊆ g.cases := fun _ hx => hsub (List.mem_cons_of_mem _ hx)
      rw [runCases, meetAll]
      rcases runCase_spec hp hg (hsub List.mem_cons_self) t with
        ⟨t', hr, hmeet, htotal, hpassed⟩ | ⟨hmeet, ⟨t', hr, htotal, hpassed⟩ | ⟨status, hr, hne⟩⟩ <;> rw [hr, hmeet]
      · exact ih hrest (by omega)
      · exact runCases_lags hp hg hrest (by omega)
      · exact .inr ⟨status, rfl, hne⟩

theorem runGroups_lags (hp : p.Sound) {groups : List (TestGroup σ)} (hsub : groups ⊆ p.groups)
    (ht : t.passed < t.total) : Lags (p.runGroups groups t) := by
  induction groups generalizing t with
  | nil => exact .inl ⟨t, rfl, ht⟩
  | cons g groups ih =>
      rw [runGroups]
      rcases runCases_lags hp (hsub List.mem_cons_self) (List.Subset.refl _) ht with
        ⟨t', hr, hlt⟩ | ⟨status, hr, hne⟩ <;> rw [hr]
      · exact ih (fun _ hx => hsub (List.mem_cons_of_mem _ hx)) hlt
      · exact .inr ⟨status, rfl, hne⟩

theorem runGroups_agrees (hp : p.Sound) {groups : List (TestGroup σ)} (hsub : groups ⊆ p.groups)
    (ht : t.passed = t.total) :
    Agrees (p.runGroups groups t) (meetAll p.fresh (groups.flatMap (·.cases)) t.state) := by
  induction groups generalizing t with
  | nil => exact ⟨t, rfl, rfl, ht⟩
  | cons g groups ih =>
      have hrest : groups ⊆ p.groups := fun _ hx => hsub (List.mem_cons_of_mem _ hx)
      rw [runGroups, List.flatMap_cons, meetAll_append]
      have hcases := runCases_agrees hp (hsub List.mem_cons_self) (List.Subset.refl _) ht
      cases hmeet : meetAll p.fresh g.cases t.state with
      | some s =>
          rw [hmeet] at hcases
          obtain ⟨t', hr, rfl, ht'⟩ := hcases
          rw [hr]
          exact ih hrest ht'
      | none =>
          rw [hmeet] at hcases
          rcases hcases with ⟨t', hr, hlt⟩ | ⟨status, hr, hne⟩ <;> rw [hr]
          · exact runGroups_lags hp hrest hlt
          · exact .inr ⟨status, rfl, hne⟩

/-- The runner's exit code can be trusted: it is zero exactly if every registered case does
what is expected of it, each in the state in which the cases before it left the process, or
in a fresh one if it is isolated. -/
theorem run_all_exact (hp : p.Sound) {args : List Text} (hargs : ∀ arg, args ≠ [runFlag, arg]) :
    p.runAll args = .exited 0 ↔ (meetAll p.fresh (p.groups.flatMap (·.cases)) p.fresh).isSome := by
  have hevery : p.runAll args = p.everyCase := by
    unfold runAll
    split
    · next flag arg =>
        refine if_neg ?_
        rintro rfl
        exact hargs arg rfl
    · rfl
  have hagrees := runGroups_agrees (t := { state := p.fresh }) hp (List.Subset.refl _) rfl
  rw [hevery, everyCase]
  cases hmeet : meetAll p.fresh (p.groups.flatMap (·.cases)) p.fresh with
  | some s =>
      rw [hmeet] at hagrees
      obtain ⟨t, hr, -, ht⟩ := hagrees
      simp [hr, ht]
  | none =>
      rw [hmeet] at hagrees
      rcases hagrees with ⟨t, hr, hlt⟩ | ⟨status, hr, hne⟩
      · simp [hr, Nat.ne_of_lt hlt]
      · simp [hr, hne]

/-- Two groups share a state: the second case of the first group throws, the second group's
crashes in a process of its own. -/
def mixedProgram : Program Nat where
  groups :=
    [{ name := "first".toList
       cases := [{ name := "counts".toList, body := fun n => .returned [] (n + 1) },
                 { name := "throws".toList, body := fun n => .threw none [] n }] },
     { name := "second".toList
       cases := [{ name := "dies".toList, body := fun _ => .died .abort, isolated := true, expectCrash := true }] }]
  fresh := 0

theorem mixedProgram_sound : mixedProgram.Sound where
  started _ := rfl
  sizes := by decide
  zeros := by decide
  plain := by decide
  first := by
    intro g hg c hc hi
    rcases List.mem_pair.mp hg with rfl | rfl
    · rcases List.mem_pair.mp hc with rfl | rfl <;> cases hi
    · rw [List.mem_singleton.mp hc]
      rfl
  stays := by simp [mixedProgram]

theorem mixedProgram_exact : mixedProgram.runAll [] = .exited 1 ∧ mixedProgram.runAll [] ≠ .exited 0 := by
  refine ⟨rfl, fun h => ?_⟩
  exact absurd ((run_all_exact mixedProgram_sound (by simp)).mp h) (by decide)

end Program
end CxNetworking.Testing
