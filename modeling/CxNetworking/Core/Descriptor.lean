import CxNetworking.Core.SocketOps
import CxNetworking.Lib.Execution
import CxNetworking.Lib.Ownership

/-! `core::descriptor` over POSIX. A `state` owns the descriptor whose number it holds, and
the kernel gives a number out again as soon as it is closed. -/
namespace CxNetworking.Core
open Execution Ownership

/-- The descriptors that a process has open. `opened` and `closed` are the numbers that the
kernel gave out and those passed to `::close`, and `stray` the closed ones that were not
open, all newest first. -/
structure Files where
  table : List Handle := []
  opened : List Handle := []
  closed : List Handle := []
  stray : List Handle := []
  deriving DecidableEq, Repr

namespace Files

variable {f : Files} {ω : Type} {fds : ω → Option Handle} {loose : List Handle} {fd : Handle}

def make (f : Files) (fd : Handle) : Files := { f with table := fd :: f.table, opened := fd :: f.opened }

def close (f : Files) (fd : Handle) : Files :=
  { f with
    table := f.table.erase fd
    closed := fd :: f.closed
    stray := if fd ∈ f.table then f.stray else fd :: f.stray }

/-- `state::reset`, up to the member. -/
def reset (f : Files) (fd : Handle) : Files := if valid fd then f.close fd else f

/-- What the owners with these members hold. -/
def held (fds : ω → Option Handle) (o : ω) : Option Handle := (fds o).filter valid

theorem held_update [DecidableEq ω] (fds : ω → Option Handle) (o : ω) (x : Option Handle) :
    held (Function.update fds o x) = Function.update (held fds) o (x.filter valid) :=
  Function.comp_update (Option.filter valid) fds o x

theorem held_eq_some {o : ω} : held fds o = some fd ↔ fds o = some fd ∧ valid fd = true := Option.filter_eq_some_iff

/-- The books are kept: the open descriptors are those held by the owners, one owner each,
and those in the hands of running code, and each number was closed as often as it was given
out, up to an open one. -/
structure Kept (f : Files) (fds : ω → Option Handle) (loose : List Handle) : Prop where
  owned : Owned f.table (held fds) loose
  valid : ∀ fd ∈ loose, valid fd = true
  clean : f.stray = []
  balance : ∀ fd, f.opened.count fd = f.closed.count fd + f.table.count fd

namespace Kept

theorem start : Kept {} (fun _ : ω => none) [] where
  owned := Owned.start
  valid := by simp
  clean := rfl
  balance _ := rfl

theorem make (h : Kept f fds loose) (hfd : fd ∉ f.table) (hv : Core.valid fd = true) :
    Kept (f.make fd) fds (fd :: loose) where
  owned := h.owned.acquire hfd
  valid := List.forall_mem_cons.mpr ⟨hv, h.valid⟩
  clean := h.clean
  balance x := by
    have hb := h.balance x
    simp only [Files.make, List.count_cons]
    omega

theorem balance_close (h : Kept f fds loose) (hfd : fd ∈ f.table) (x : Handle) :
    (f.close fd).opened.count x = (f.close fd).closed.count x + (f.close fd).table.count x := by
  have hb := h.balance x
  have hp := (List.perm_cons_erase hfd).count_eq x
  simp only [Files.close, List.count_cons] at hp ⊢
  omega

theorem close (h : Kept f fds (fd :: loose)) : Kept (f.close fd) fds loose where
  owned := h.owned.discard
  valid := (List.forall_mem_cons.mp h.valid).2
  clean := by simp [Files.close, h.owned.mem_of_loose List.mem_cons_self, h.clean]
  balance := h.balance_close (h.owned.mem_of_loose List.mem_cons_self)

theorem of_perm {loose' : List Handle} (h : Kept f fds loose) (hp : loose'.Perm loose) : Kept f fds loose' where
  owned := h.owned.of_perm (List.Perm.refl _) hp
  valid x hx := h.valid x (hp.mem_iff.mp hx)
  clean := h.clean
  balance := h.balance

section Owners

variable [DecidableEq ω] {o : ω} {x : Option Handle}

theorem hollow (h : Kept f fds loose) (ho : held fds o = none) (hx : x.filter Core.valid = none) :
    Kept f (Function.update fds o x) loose where
  owned := by
    have hsame : Function.update (held fds) o none = held fds := by rw [← ho, Function.update_eq_self]
    rw [held_update, hx, hsame]
    exact h.owned
  valid := h.valid
  clean := h.clean
  balance := h.balance

theorem store (h : Kept f fds (fd :: loose)) (ho : held fds o = none) :
    Kept f (Function.update fds o (some fd)) loose where
  owned := by
    have hv := h.valid fd List.mem_cons_self
    rw [held_update, Option.filter_some, if_pos hv]
    exact h.owned.store ho
  valid := (List.forall_mem_cons.mp h.valid).2
  clean := h.clean
  balance := h.balance

theorem unload (h : Kept f fds loose) (ho : fds o = some fd) (hv : Core.valid fd = true)
    (hx : x.filter Core.valid = none) : Kept f (Function.update fds o x) (fd :: loose) where
  owned := by
    rw [held_update, hx]
    exact h.owned.unload (held_eq_some.mpr ⟨ho, hv⟩)
  valid := List.forall_mem_cons.mpr ⟨hv, h.valid⟩
  clean := h.clean
  balance := h.balance

theorem reset (h : Kept f fds loose) (ho : fds o = some fd) (hx : x.filter Core.valid = none) :
    Kept (f.reset fd) (Function.update fds o x) loose := by
  rw [Files.reset]
  split
  next hv => exact (h.unload ho hv hx).close
  next hv =>
    apply h.hollow _ hx
    rw [held, ho, Option.filter_some, if_neg hv]

theorem assign {old : Handle} (h : Kept f fds (fd :: loose)) (ho : fds o = some old) :
    Kept (f.reset old) (Function.update fds o (some fd)) loose := by
  have hr := h.reset (x := none) ho rfl
  have hs := hr.store (o := o) (by rw [held, Function.update_self]; rfl)
  rwa [Function.update_idem] at hs

end Owners

end Kept
end Files

/-- The `state` objects of a program, by name, with the number that each holds. `raw` are
the descriptors that no object owns: those just opened, and those that were released. -/
structure Owners where
  files : Files := {}
  objects : Nat → Option Handle := fun _ => none
  raw : List Handle := []

inductive OwnerLabel where
  | make (fd : Handle)
  | construct (k : Nat)
  | adopt (k : Nat) (fd : Handle)
  | moveConstruct (k src : Nat)
  | moveAssign (k src : Nat)
  | close (k : Nat)
  | release (k : Nat)
  | destroy (k : Nat)
  | closeRaw (fd : Handle)
  deriving DecidableEq, Repr

namespace Owners

variable {s t : Owners} {a : OwnerLabel}

def cleared (fd : Handle) : Handle := if valid fd then invalidHandle else fd

def take (s : Owners) (src : Nat) : Nat → Option Handle := Function.update s.objects src (some invalidHandle)

def step (s : Owners) : OwnerLabel → Option Owners
  | .make fd =>
    if valid fd ∧ fd ∉ s.files.table then some { s with files := s.files.make fd, raw := fd :: s.raw } else none
  | .construct k =>
    if s.objects k = none then some { s with objects := Function.update s.objects k (some invalidHandle) } else none
  | .adopt k fd =>
    if s.objects k = none then
      some { s with objects := Function.update s.objects k (some fd), raw := s.raw.erase fd }
    else none
  | .moveConstruct k src =>
    match s.objects src with
    | some fd =>
      if s.objects k = none then some { s with objects := Function.update (s.take src) k (some fd) } else none
    | none => none
  | .moveAssign k src =>
    match s.objects k, s.objects src with
    | some old, some fd =>
      if k ≠ src then
        some { s with files := s.files.reset old, objects := Function.update (s.take src) k (some fd) }
      else some s
    | _, _ => none
  | .close k =>
    (s.objects k).map fun fd =>
      { s with files := s.files.reset fd, objects := Function.update s.objects k (some (cleared fd)) }
  | .release k =>
    (s.objects k).map fun fd =>
      { s with objects := s.take k, raw := if valid fd then fd :: s.raw else s.raw }
  | .destroy k =>
    (s.objects k).map fun fd =>
      { s with files := s.files.reset fd, objects := Function.update s.objects k none }
  | .closeRaw fd => some { s with files := s.files.close fd, raw := s.raw.erase fd }

/-- A program that closes a number itself, or passes a valid one to `adopt`, owns it: the
descriptor was just opened or released, and no object holds it. -/
def Careful (s : Owners) : OwnerLabel → Prop
  | .adopt _ fd => valid fd = true → fd ∈ s.raw
  | .closeRaw fd => fd ∈ s.raw
  | _ => True

instance (s : Owners) (a : OwnerLabel) : Decidable (s.Careful a) :=
  match a with
  | .adopt _ _ => inferInstanceAs (Decidable (_ → _))
  | .closeRaw _ => inferInstanceAs (Decidable (_ ∈ _))
  | .make _ | .construct _ | .moveConstruct _ _ | .moveAssign _ _ | .close _ | .release _ | .destroy _ => isTrue trivial

def Kept (s : Owners) : Prop := s.files.Kept s.objects s.raw

theorem start_kept : Kept {} := Files.Kept.start

theorem filter_invalid : (some invalidHandle).filter valid = none := by decide

theorem filter_cleared (fd : Handle) : (some (cleared fd)).filter valid = none := by
  rw [cleared]
  split
  next => exact filter_invalid
  next hv => rw [Option.filter_some, if_neg hv]

theorem held_of_not_valid {k : Nat} {fd : Handle} (hk : s.objects k = some fd) (hv : ¬ valid fd = true) :
    Files.held s.objects k = none := by
  rw [Files.held, hk, Option.filter_some, if_neg hv]

theorem held_of_none {k : Nat} (hk : s.objects k = none) : Files.held s.objects k = none := by
  rw [Files.held, hk]
  rfl

theorem Kept.move {f : Files} {objects : Nat → Option Handle} {raw : List Handle} {k src : Nat} {fd : Handle}
    (h : f.Kept objects raw) (hsrc : objects src = some fd) (hk : Files.held objects k = none) (hne : k ≠ src) :
    f.Kept (Function.update (Function.update objects src (some invalidHandle)) k (some fd)) raw := by
  have hk' : Files.held (Function.update objects src (some invalidHandle)) k = none := by
    rw [Files.held, Function.update_of_ne hne]
    exact hk
  by_cases hv : valid fd = true
  · exact (h.unload hsrc hv filter_invalid).store hk'
  · apply Files.Kept.hollow _ hk'
    · rw [Option.filter_some, if_neg hv]
    · apply h.hollow _ filter_invalid
      rw [Files.held, hsrc, Option.filter_some, if_neg hv]

theorem step_kept (hs : s.Kept) (hok : s.Careful a) (h : s.step a = some t) : t.Kept := by
  cases a with
  | make fd =>
      obtain ⟨⟨hv, hfd⟩, h⟩ := Option.ite_none_right_eq_some.mp h
      cases h
      exact Files.Kept.make hs hfd hv
  | construct k =>
      obtain ⟨hk, h⟩ := Option.ite_none_right_eq_some.mp h
      cases h
      exact Files.Kept.hollow hs (held_of_none hk) filter_invalid
  | adopt k fd =>
      obtain ⟨hk, h⟩ := Option.ite_none_right_eq_some.mp h
      cases h
      by_cases hv : valid fd = true
      · exact (Files.Kept.of_perm hs (List.perm_cons_erase (hok hv)).symm).store (held_of_none hk)
      · have hout : fd ∉ s.raw := fun hm => hv (hs.valid fd hm)
        change s.files.Kept _ (s.raw.erase fd)
        rw [List.erase_of_not_mem hout]
        apply Files.Kept.hollow hs (held_of_none hk)
        rw [Option.filter_some, if_neg hv]
  | moveConstruct k src =>
      simp only [step] at h
      split at h
      next fd hsrc =>
        obtain ⟨hk, h⟩ := Option.ite_none_right_eq_some.mp h
        cases h
        apply Kept.move hs hsrc (held_of_none hk)
        rintro rfl
        rw [hk] at hsrc
        cases hsrc
      next => cases h
  | moveAssign k src =>
      simp only [step] at h
      split at h
      next old fd hk hsrc =>
        split at h
        next hne =>
          cases h
          -- `reset` leaves the member empty, and then it takes the other's descriptor.
          have hr : (s.files.reset old).Kept (Function.update s.objects k none) s.raw := Files.Kept.reset hs hk rfl
          have hm := Kept.move (k := k) hr (by rw [Function.update_of_ne (Ne.symm hne)]; exact hsrc)
            (by rw [Files.held, Function.update_self]; rfl) hne
          rwa [Function.update_comm hne, Function.update_idem] at hm
        next =>
          cases h
          exact hs
      next => cases h
  | close k =>
      obtain ⟨fd, hk, rfl⟩ := Option.map_eq_some_iff.mp h
      exact Files.Kept.reset hs hk (filter_cleared fd)
  | release k =>
      obtain ⟨fd, hk, rfl⟩ := Option.map_eq_some_iff.mp h
      change s.files.Kept _ (if valid fd = true then fd :: s.raw else s.raw)
      split
      next hv => exact Files.Kept.unload hs hk hv filter_invalid
      next hv => exact Files.Kept.hollow hs (held_of_not_valid hk hv) filter_invalid
  | destroy k =>
      obtain ⟨fd, hk, rfl⟩ := Option.map_eq_some_iff.mp h
      exact Files.Kept.reset hs hk rfl
  | closeRaw fd =>
      cases h
      exact (Files.Kept.of_perm hs (List.perm_cons_erase hok).symm).close

/-- Whatever a program does with its `state` objects, moves between them and onto themselves
included, as long as it adopts and closes no number but those it owns: no descriptor is
closed twice or by the wrong owner, though numbers come back. At every moment an open
descriptor is held by one object or was released, and a number was closed as often as it was
given out, less one while it is open. -/
theorem closed_once {as : List OwnerLabel} (hok : Along step Careful {} as) (h : run step {} as = some s) :
    s.files.stray = [] ∧
      (∀ fd, s.files.opened.count fd = s.files.closed.count fd + if fd ∈ s.files.table then 1 else 0) ∧
      (∀ fd, fd ∈ s.files.table ↔ fd ∈ s.raw ∨ ∃ k, s.objects k = some fd ∧ valid fd = true) ∧
      ∀ k fd, s.objects k = some fd → valid fd = true → fd ∉ s.raw ∧ ∀ k', s.objects k' = some fd → k' = k := by
  have hs : s.Kept := (throughout_of_along (I := Kept) (fun _ _ _ => step_kept) start_kept hok).last h
  refine ⟨hs.clean, ?_, ?_, ?_⟩
  · intro fd
    rw [hs.balance fd, hs.owned.nodup.count]
  · intro fd
    rw [hs.owned.mem_iff]
    simp only [Files.held_eq_some]
  · intro k fd hk hv
    have hheld := Files.held_eq_some.mpr ⟨hk, hv⟩
    exact ⟨hs.owned.apart k fd hheld,
      fun k' hk' => hs.owned.alone k' k fd (Files.held_eq_some.mpr ⟨hk', hv⟩) hheld⟩

/-- A descriptor is moved and closed, and its number comes back to the object it was moved
from. -/
def reusedRun : List OwnerLabel :=
  [.make 3, .adopt 0 3, .construct 1, .moveAssign 1 0, .close 1, .make 3, .adopt 2 3, .moveAssign 0 2, .moveAssign 0 0,
    .destroy 1, .destroy 2]

theorem reusedRun_closed_once :
    ∃ s, run step {} reusedRun = some s ∧ s.files.opened = [3, 3] ∧ s.objects 0 = some 3 ∧ s.files.stray = [] ∧
      3 ∉ s.raw :=
  ⟨_, rfl, rfl, rfl, (closed_once (by decide) (rfl : run step {} reusedRun = _)).1,
    ((closed_once (by decide) (rfl : run step {} reusedRun = _)).2.2.2 0 3 rfl rfl).1⟩

/-- A number that is adopted twice is closed twice. -/
example : (run step {} [.make 5, .adopt 0 5, .adopt 1 5, .destroy 0, .destroy 1]).map (·.files.stray) = some [5] := rfl

end Owners
end CxNetworking.Core
