import Mathlib.Data.Fintype.BigOperators
import Mathlib.Algebra.Order.BigOperators.Ring.Finset

/-!
# Tasks that share a state under reader-writer locks

A `Task` takes locks, reads and changes a shared state, and gives the locks back. `Threads` are a
shared state and one task for each of them; a step is one instruction of one thread, so the runs of
a system are all interleavings. Threads that are done can be given a new task.

Three things are proved once here. Tasks that take locks in the order of a ranking never block each
other for good (`Disciplined.progress`), also when a waiting writer keeps readers out. Tasks of
bounded length then all finish, whatever the schedule (`Disciplined.finishes`). And what a lock
protects does not change under a thread that holds it (`Step.frame`).
-/

set_option autoImplicit false

namespace Trv1Chain.Lib

inductive Mode where
  | read
  | write
  deriving DecidableEq

/-- A program of lock operations and actions. An action changes the state and goes on according to
the state it found. -/
inductive Task (L σ ρ : Type) where
  | done (answer : ρ)
  | acquire (l : L) (m : Mode) (rest : Task L σ ρ)
  | release (l : L) (rest : Task L σ ρ)
  | act (f : σ → σ) (rest : σ → Task L σ ρ)

namespace Task

variable {L σ ρ : Type}

/-- One action under one lock. -/
def under (l : L) (m : Mode) (f : σ → σ) (rest : σ → Task L σ ρ) : Task L σ ρ :=
  .acquire l m (.act f fun s => .release l (rest s))

/-- A read under one lock. -/
def peek (l : L) (rest : σ → Task L σ ρ) : Task L σ ρ := under l .read id rest

/-- What the task does and answers when nothing runs beside it. -/
def run : Task L σ ρ → σ → σ × ρ
  | .done r, s => (s, r)
  | .acquire _ _ rest, s => rest.run s
  | .release _ rest, s => rest.run s
  | .act f rest, s => (rest s).run (f s)

@[simp] theorem run_under (l : L) (m : Mode) (f : σ → σ) (rest : σ → Task L σ ρ) (s : σ) :
    (under l m f rest).run s = (rest s).run (f s) := rfl

@[simp] theorem run_peek (l : L) (rest : σ → Task L σ ρ) (s : σ) :
    (peek l rest).run s = (rest s).run s := rfl

/-- At most this many instructions are left, whatever the states it meets. -/
def Within : Task L σ ρ → Nat → Prop
  | .done _, _ => True
  | .acquire _ _ rest, n => 0 < n ∧ rest.Within (n - 1)
  | .release _ rest, n => 0 < n ∧ rest.Within (n - 1)
  | .act _ rest, n => 0 < n ∧ ∀ s, (rest s).Within (n - 1)

theorem Within.mono : ∀ {t : Task L σ ρ} {n k : Nat}, t.Within n → n ≤ k → t.Within k := by
  intro t
  induction t with
  | done r => intro n k _ _; trivial
  | acquire l m rest ih =>
    intro n k h hle
    exact ⟨Nat.lt_of_lt_of_le h.1 hle, ih h.2 (Nat.sub_le_sub_right hle 1)⟩
  | release l rest ih =>
    intro n k h hle
    exact ⟨Nat.lt_of_lt_of_le h.1 hle, ih h.2 (Nat.sub_le_sub_right hle 1)⟩
  | act f rest ih =>
    intro n k h hle
    exact ⟨Nat.lt_of_lt_of_le h.1 hle, fun s => ih s (h.2 s) (Nat.sub_le_sub_right hle 1)⟩

/-- The task is finished. -/
def Finished (t : Task L σ ρ) : Prop := ∃ r, t = .done r

variable [DecidableEq L]

/-- What is left of the held locks when `l` is given back. -/
def without (l : L) (held : List (L × Mode)) : List (L × Mode) := held.filter fun h => h.1 ≠ l

/-- Locks are taken in rising rank, and all are given back. -/
def Ordered (rank : L → Nat) : List (L × Mode) → Task L σ ρ → Prop
  | held, .done _ => held = []
  | held, .acquire l m rest => (∀ h ∈ held, rank h.1 < rank l) ∧ Ordered rank ((l, m) :: held) rest
  | held, .release l rest => Ordered rank (without l held) rest
  | held, .act _ rest => ∀ s, Ordered rank held (rest s)

/-- The part `p` of the state is changed only while `l` is held for writing. -/
def Respects {α : Type} (l : L) (p : σ → α) : List (L × Mode) → Task L σ ρ → Prop
  | _, .done _ => True
  | held, .acquire l' m rest => Respects l p ((l', m) :: held) rest
  | held, .release l' rest => Respects l p (without l' held) rest
  | held, .act f rest =>
    ((l, Mode.write) ∈ held ∨ ∀ s, p (f s) = p s) ∧ ∀ s, Respects l p held (rest s)

theorem mem_without {l : L} {held : List (L × Mode)} {h : L × Mode} (hm : h ∈ without l held) :
    h ∈ held := List.mem_of_mem_filter hm

end Task

/-! ## Threads -/

/-- A thread: what it holds and what it has left to do. -/
structure Thread (L σ ρ : Type) where
  held : List (L × Mode)
  task : Task L σ ρ

/-- A shared state and the threads on it. -/
structure Threads (ι L σ ρ : Type) where
  shared : σ
  thread : ι → Thread L σ ρ

namespace Threads

variable {ι L σ ρ : Type}

def Holds (sys : Threads ι L σ ρ) (i : ι) (l : L) (m : Mode) : Prop := (l, m) ∈ (sys.thread i).held

/-- The thread stands before taking the lock. -/
def Wants (sys : Threads ι L σ ρ) (i : ι) (l : L) (m : Mode) : Prop :=
  ∃ rest, (sys.thread i).task = .acquire l m rest

/-- Nobody holds the lock in a way that excludes this one. -/
def Free (sys : Threads ι L σ ρ) (l : L) (m : Mode) : Prop :=
  ∀ j m', sys.Holds j l m' → m = .read ∧ m' = .read

/-- The thread can take its next instruction, also where a waiting writer keeps new readers out. -/
def CanMove (sys : Threads ι L σ ρ) (i : ι) : Prop :=
  ¬ (sys.thread i).task.Finished ∧
    ∀ l m, sys.Wants i l m → sys.Free l m ∧ (m = .read → ∀ j, ¬ sys.Wants j l .write)

/-- A thread that cannot move wants a lock. -/
theorem exists_wants {sys : Threads ι L σ ρ} {i : ι} (hbusy : ¬ (sys.thread i).task.Finished)
    (hstuck : ¬ sys.CanMove i) : ∃ l m, sys.Wants i l m ∧
      (sys.Free l m → m = .read ∧ ∃ j, sys.Wants j l .write) := by
  unfold CanMove at hstuck
  push Not at hstuck
  obtain ⟨l, m, hw, hno⟩ := hstuck hbusy
  refine ⟨l, m, hw, fun hfree => ?_⟩
  exact hno hfree

section Put

variable [DecidableEq ι]

def put (sys : Threads ι L σ ρ) (i : ι) (t : Thread L σ ρ) : Threads ι L σ ρ :=
  { sys with thread := Function.update sys.thread i t }

@[simp] theorem put_self (sys : Threads ι L σ ρ) (i : ι) (t : Thread L σ ρ) :
    (sys.put i t).thread i = t := Function.update_self ..

theorem put_of_ne (sys : Threads ι L σ ρ) {i j : ι} (t : Thread L σ ρ) (h : j ≠ i) :
    (sys.put i t).thread j = sys.thread j := Function.update_of_ne h ..

end Put

/-! ## No deadlock -/

variable [DecidableEq L] {rank : L → Nat}

/-- Locks held in rising rank, and no two threads in each other's way. -/
structure Disciplined (rank : L → Nat) (sys : Threads ι L σ ρ) : Prop where
  ordered : ∀ i, (sys.thread i).task.Ordered rank (sys.thread i).held
  exclusive : ∀ i j l m m', i ≠ j → sys.Holds i l m → sys.Holds j l m' → m = .read ∧ m' = .read

/-- A finished thread holds nothing. -/
theorem Disciplined.held_of_finished {sys : Threads ι L σ ρ} (hd : sys.Disciplined rank) {i : ι}
    (hf : (sys.thread i).task.Finished) : (sys.thread i).held = [] := by
  obtain ⟨r, hr⟩ := hf
  have ho := hd.ordered i
  rwa [hr] at ho

/-- **One stuck thread waits for another, at a higher lock.** -/
theorem Disciplined.exists_higher {sys : Threads ι L σ ρ} (hd : sys.Disciplined rank)
    (hstuck : ∀ i, ¬ sys.CanMove i) {i : ι} {l : L} {m : Mode} (hw : sys.Wants i l m)
    (hno : sys.Free l m → m = .read ∧ ∃ j, sys.Wants j l .write) :
    ∃ j l' m', sys.Wants j l' m' ∧ rank l < rank l' ∧
      (sys.Free l' m' → m' = .read ∧ ∃ k, sys.Wants k l' .write) := by
  -- whoever holds the lock is itself stuck, before a lock of higher rank
  have holder : ∀ j m', sys.Holds j l m' → ∃ j l' m', sys.Wants j l' m' ∧ rank l < rank l' ∧
      (sys.Free l' m' → m' = .read ∧ ∃ k, sys.Wants k l' .write) := by
    intro j m' hh
    have hbusy : ¬ (sys.thread j).task.Finished := by
      intro hf
      unfold Holds at hh
      rw [hd.held_of_finished hf] at hh
      exact absurd hh (by simp)
    obtain ⟨l', m'', hw', hno'⟩ := exists_wants hbusy (hstuck j)
    obtain ⟨rest, ht⟩ := hw'
    have ho := hd.ordered j
    rw [ht] at ho
    exact ⟨j, l', m'', ⟨rest, ht⟩, ho.1 (l, m') hh, hno'⟩
  by_cases hfree : sys.Free l m
  · -- a waiting writer is in the way, and somebody in the writer's
    obtain ⟨rfl, k, hk⟩ := hno hfree
    by_cases hfree' : sys.Free l .write
    · exfalso
      refine hstuck k ⟨?_, ?_⟩
      · rintro ⟨r, hr⟩
        obtain ⟨rest, ht⟩ := hk
        rw [hr] at ht
        cases ht
      · rintro l' m' ⟨rest', ht'⟩
        obtain ⟨rest, ht⟩ := hk
        rw [ht] at ht'
        cases ht'
        exact ⟨hfree', fun h => absurd h (by decide)⟩
    · unfold Free at hfree'
      push Not at hfree'
      obtain ⟨j, m', hh, -⟩ := hfree'
      exact holder j m' hh
  · unfold Free at hfree
    push Not at hfree
    obtain ⟨j, m', hh, -⟩ := hfree
    exact holder j m' hh

/-- **No deadlock.** As long as a thread has something left to do, some thread can move. -/
theorem Disciplined.progress {sys : Threads ι L σ ρ} (hd : sys.Disciplined rank) {N : Nat}
    (hN : ∀ l, rank l < N) {i : ι} (hbusy : ¬ (sys.thread i).task.Finished) :
    ∃ j, sys.CanMove j := by
  by_contra hstuck
  push Not at hstuck
  -- otherwise there are stuck threads before locks of every rank
  have hclimb : ∀ n, ∃ j l m, sys.Wants j l m ∧ n ≤ rank l ∧
      (sys.Free l m → m = .read ∧ ∃ k, sys.Wants k l .write) := by
    intro n
    induction n with
    | zero =>
      obtain ⟨l, m, hw, hno⟩ := exists_wants hbusy (hstuck i)
      exact ⟨i, l, m, hw, Nat.zero_le _, hno⟩
    | succ n ih =>
      obtain ⟨j, l, m, hw, hle, hno⟩ := ih
      obtain ⟨j', l', m', hw', hlt, hno'⟩ := hd.exists_higher hstuck hw hno
      exact ⟨j', l', m', hw', Nat.succ_le_of_lt (Nat.lt_of_le_of_lt hle hlt), hno'⟩
  obtain ⟨j, l, m, -, hle, -⟩ := hclimb N
  exact absurd (hN l) (Nat.not_lt.mpr hle)

/-! ## Steps -/

variable [DecidableEq ι]

/-- One instruction of thread `i`. -/
inductive Step (sys : Threads ι L σ ρ) (i : ι) : Threads ι L σ ρ → Prop
  | acquire {l : L} {m : Mode} {rest : Task L σ ρ} : (sys.thread i).task = .acquire l m rest →
      sys.Free l m → Step sys i (sys.put i ⟨(l, m) :: (sys.thread i).held, rest⟩)
  | release {l : L} {rest : Task L σ ρ} : (sys.thread i).task = .release l rest →
      Step sys i (sys.put i ⟨Task.without l (sys.thread i).held, rest⟩)
  | act {f : σ → σ} {rest : σ → Task L σ ρ} : (sys.thread i).task = .act f rest →
      Step sys i (Threads.put { sys with shared := f sys.shared } i
        ⟨(sys.thread i).held, rest sys.shared⟩)

theorem CanMove.exists_step {sys : Threads ι L σ ρ} {i : ι} (h : sys.CanMove i) :
    ∃ sys', Step sys i sys' := by
  cases ht : (sys.thread i).task with
  | done r => exact absurd ⟨r, ht⟩ h.1
  | acquire l m rest => exact ⟨_, .acquire ht (h.2 l m ⟨rest, ht⟩).1⟩
  | release l rest => exact ⟨_, .release ht⟩
  | act f rest => exact ⟨_, .act ht⟩

/-- The systems a system can become, with the shared states met on the way, newest first. A finished
thread may be given a task that `spawns` admits. -/
inductive Reach (spawns : σ → ι → Task L σ ρ → Prop) (sys₀ : Threads ι L σ ρ) :
    List σ → Threads ι L σ ρ → Prop
  | init : Reach spawns sys₀ [sys₀.shared] sys₀
  | step {visited : List σ} {sys sys' : Threads ι L σ ρ} (i : ι) : Reach spawns sys₀ visited sys →
      Step sys i sys' → Reach spawns sys₀ (sys'.shared :: visited) sys'
  | spawn {visited : List σ} {sys : Threads ι L σ ρ} (i : ι) (t : Task L σ ρ) :
      Reach spawns sys₀ visited sys → (sys.thread i).task.Finished → spawns sys.shared i t →
      Reach spawns sys₀ visited (sys.put i ⟨(sys.thread i).held, t⟩)

/-- The present state is the last one met. -/
theorem Reach.visited_eq {spawns : σ → ι → Task L σ ρ → Prop} {sys₀ sys : Threads ι L σ ρ}
    {visited : List σ} (hr : Reach spawns sys₀ visited sys) :
    ∃ earlier, visited = sys.shared :: earlier := by
  induction hr with
  | init => exact ⟨[], rfl⟩
  | @step visited sys sys' i _ _ _ => exact ⟨visited, rfl⟩
  | spawn i t _ _ _ ih => exact ih

/-- **The invariant rule of a system.** -/
theorem Reach.invariant {spawns : σ → ι → Task L σ ρ → Prop} {sys₀ : Threads ι L σ ρ}
    {I : List σ → Threads ι L σ ρ → Prop} {visited : List σ} {sys : Threads ι L σ ρ}
    (hr : Reach spawns sys₀ visited sys) (base : I [sys₀.shared] sys₀)
    (step : ∀ {visited sys sys' i}, Reach spawns sys₀ visited sys → I visited sys →
      Step sys i sys' → I (sys'.shared :: visited) sys')
    (spawn : ∀ {visited sys i t}, Reach spawns sys₀ visited sys → I visited sys →
      (sys.thread i).task.Finished → spawns sys.shared i t →
      I visited (sys.put i ⟨(sys.thread i).held, t⟩)) : I visited sys := by
  induction hr with
  | init => exact base
  | step i hr hs ih => exact step hr ih hs
  | spawn i t hr hf hsp ih => exact spawn hr ih hf hsp

/-! ## What a step does to the threads -/

/-- A step leaves the other threads as they are. -/
theorem Step.other {sys sys' : Threads ι L σ ρ} {i j : ι} (hs : Step sys i sys') (h : j ≠ i) :
    sys'.thread j = sys.thread j := by
  cases hs with
  | acquire _ _ => exact put_of_ne sys _ h
  | release _ => exact put_of_ne sys _ h
  | act _ => exact put_of_ne _ _ h

/-- What a thread comes to hold it held before, or has just been free to take. -/
theorem Step.holds {sys sys' : Threads ι L σ ρ} {i j : ι} {l : L} {m : Mode}
    (hs : Step sys i sys') (h : sys'.Holds j l m) : sys.Holds j l m ∨ j = i ∧ sys.Free l m := by
  by_cases hj : j = i
  · subst hj
    unfold Holds at h
    cases hs with
    | @acquire l' m' rest ht hfree =>
      rw [put_self] at h
      rcases List.mem_cons.mp h with heq | h
      · cases heq
        exact Or.inr ⟨rfl, hfree⟩
      · exact Or.inl h
    | release ht =>
      rw [put_self] at h
      exact Or.inl (Task.mem_without h)
    | act ht =>
      rw [put_self] at h
      exact Or.inl h
  · left
    unfold Holds at h ⊢
    rwa [hs.other hj] at h

theorem Disciplined.step {sys sys' : Threads ι L σ ρ} {i : ι} (hd : sys.Disciplined rank)
    (hs : Step sys i sys') : sys'.Disciplined rank where
  ordered := by
    intro j
    by_cases hj : j = i
    · subst hj
      have ho := hd.ordered j
      cases hs with
      | acquire ht _ =>
        rw [ht] at ho
        rw [put_self]
        exact ho.2
      | release ht =>
        rw [ht] at ho
        rw [put_self]
        exact ho
      | act ht =>
        rw [ht] at ho
        rw [put_self]
        exact ho sys.shared
    · rw [hs.other hj]
      exact hd.ordered j
  exclusive := by
    intro j k l m m' hne hj hk
    rcases hs.holds hj with hj | ⟨rfl, hfree⟩
    · rcases hs.holds hk with hk | ⟨rfl, hfree⟩
      · exact hd.exclusive j k l m m' hne hj hk
      · exact (hfree j m hj).symm
    · rcases hs.holds hk with hk | ⟨rfl, -⟩
      · exact hfree k m' hk
      · exact absurd rfl hne

theorem Disciplined.spawn {sys : Threads ι L σ ρ} {i : ι} {t : Task L σ ρ}
    (hd : sys.Disciplined rank) (hf : (sys.thread i).task.Finished) (ht : t.Ordered rank []) :
    (sys.put i ⟨(sys.thread i).held, t⟩).Disciplined rank := by
  constructor
  · intro j
    by_cases hj : j = i
    · subst hj
      rw [put_self, hd.held_of_finished hf]
      exact ht
    · rw [put_of_ne sys _ hj]
      exact hd.ordered j
  · have hback : ∀ j l m, (sys.put i ⟨(sys.thread i).held, t⟩).Holds j l m → sys.Holds j l m := by
      intro j l m h
      unfold Holds at h ⊢
      by_cases hj : j = i
      · subst hj
        rwa [put_self] at h
      · rwa [put_of_ne sys _ hj] at h
    intro j k l m m' hne hj hk
    exact hd.exclusive j k l m m' hne (hback j l m hj) (hback k l m' hk)

theorem Reach.disciplined {spawns : σ → ι → Task L σ ρ → Prop} {sys₀ sys : Threads ι L σ ρ}
    {visited : List σ} (hr : Reach spawns sys₀ visited sys) (hd : sys₀.Disciplined rank)
    (hspawns : ∀ {s i t}, spawns s i t → t.Ordered rank []) : sys.Disciplined rank := by
  refine hr.invariant (I := fun _ sys => sys.Disciplined rank) hd ?_ ?_
  · intro visited sys sys' i _ ih hs
    exact ih.step hs
  · intro visited sys i t _ ih hf hsp
    exact ih.spawn hf (hspawns hsp)

/-! ## Finishing -/

/-- `n` steps, in any order of the threads. -/
inductive Steps (sys : Threads ι L σ ρ) : Nat → Threads ι L σ ρ → Prop
  | zero : Steps sys 0 sys
  | succ {n : Nat} {sys' sys'' : Threads ι L σ ρ} (i : ι) : Steps sys n sys' →
      Step sys' i sys'' → Steps sys (n + 1) sys''

theorem Disciplined.steps {n : Nat} {sys sys' : Threads ι L σ ρ} (hd : sys.Disciplined rank)
    (hs : Steps sys n sys') : sys'.Disciplined rank := by
  induction hs with
  | zero => exact hd
  | succ i _ hstep ih => exact ih.step hstep

/-- A step takes one off the work of its thread. -/
theorem Step.within {sys sys' : Threads ι L σ ρ} {i : ι} (hs : Step sys i sys') {n : Nat}
    (h : (sys.thread i).task.Within n) : 0 < n ∧ (sys'.thread i).task.Within (n - 1) := by
  cases hs with
  | acquire ht _ =>
    rw [ht] at h
    rw [put_self]
    exact h
  | release ht =>
    rw [ht] at h
    rw [put_self]
    exact h
  | act ht =>
    rw [ht] at h
    rw [put_self]
    exact ⟨h.1, h.2 sys.shared⟩

/-- Threads whose tasks are of bounded length stay so. -/
theorem Reach.within {spawns : σ → ι → Task L σ ρ → Prop} {sys₀ sys : Threads ι L σ ρ}
    {visited : List σ} {n : Nat} (hr : Reach spawns sys₀ visited sys)
    (hw : ∀ i, (sys₀.thread i).task.Within n)
    (hspawns : ∀ {s i t}, spawns s i t → t.Within n) : ∀ i, (sys.thread i).task.Within n := by
  refine hr.invariant (I := fun _ sys => ∀ i, (sys.thread i).task.Within n) hw ?_ ?_
  · intro visited sys sys' i _ ih hs j
    by_cases hj : j = i
    · subst hj
      exact (hs.within (ih j)).2.mono (Nat.sub_le n 1)
    · rw [hs.other hj]
      exact ih j
  · intro visited sys i t _ ih _ hsp j
    by_cases hj : j = i
    · subst hj
      rw [put_self]
      exact hspawns hsp
    · rw [put_of_ne sys _ hj]
      exact ih j

/-- Steps take their number off the work of the system. -/
theorem Steps.work [Fintype ι] {n : Nat} {sys sys' : Threads ι L σ ρ} (hs : Steps sys n sys')
    {work : ι → Nat} (hw : ∀ i, (sys.thread i).task.Within (work i)) :
    ∃ work' : ι → Nat, (∀ i, (sys'.thread i).task.Within (work' i)) ∧
      n + ∑ i, work' i = ∑ i, work i := by
  induction hs with
  | zero => exact ⟨work, hw, Nat.zero_add _⟩
  | @succ n sys' sys'' i _ hstep ih =>
    obtain ⟨work', hwork', hsum⟩ := ih
    obtain ⟨hpos, hleft⟩ := hstep.within (hwork' i)
    refine ⟨Function.update work' i (work' i - 1), ?_, ?_⟩
    · intro j
      by_cases hj : j = i
      · subst hj
        rw [Function.update_self]
        exact hleft
      · rw [Function.update_of_ne hj, hstep.other hj]
        exact hwork' j
    · have hsplit := Finset.sum_update_of_mem (Finset.mem_univ i) work' (work' i - 1)
      have hsplit' := Finset.sum_update_of_mem (Finset.mem_univ i) work' (work' i)
      rw [Function.update_eq_self] at hsplit'
      omega

/-- **Everybody finishes.** A disciplined system of tasks of bounded length takes at most as many
steps as there are instructions, in whatever order, and when it can go no further all of it is
finished. -/
theorem Disciplined.finishes [Fintype ι] {n : Nat} {sys sys' : Threads ι L σ ρ}
    (hd : sys.Disciplined rank) {N : Nat} (hN : ∀ l, rank l < N) {k : Nat}
    (hw : ∀ i, (sys.thread i).task.Within k) (hs : Steps sys n sys') :
    n ≤ k * Fintype.card ι ∧
      ((∀ j, ¬ sys'.CanMove j) → ∀ i, (sys'.thread i).task.Finished) := by
  constructor
  · obtain ⟨work', -, hsum⟩ := hs.work hw
    have htotal : ∑ _i : ι, k = k * Fintype.card ι := by
      rw [Finset.sum_const_nat fun _ _ => rfl, Finset.card_univ, Nat.mul_comm]
    omega
  · intro hstuck i
    by_contra hbusy
    obtain ⟨j, hj⟩ := (hd.steps hs).progress hN hbusy
    exact hstuck j hj

/-! ## What a lock protects -/

/-- Every thread changes `p` only with `l` held for writing. -/
def Guards {α : Type} (l : L) (p : σ → α) (sys : Threads ι L σ ρ) : Prop :=
  ∀ i, (sys.thread i).task.Respects l p (sys.thread i).held

variable {α : Type} {l : L} {p : σ → α}

theorem Guards.step {sys sys' : Threads ι L σ ρ} {i : ι} (hg : sys.Guards l p)
    (hs : Step sys i sys') : sys'.Guards l p := by
  intro j
  by_cases hj : j = i
  · subst hj
    have h := hg j
    cases hs with
    | acquire ht _ =>
      rw [ht] at h
      rw [put_self]
      exact h
    | release ht =>
      rw [ht] at h
      rw [put_self]
      exact h
    | act ht =>
      rw [ht] at h
      rw [put_self]
      exact h.2 sys.shared
  · rw [hs.other hj]
    exact hg j

theorem Guards.spawn {sys : Threads ι L σ ρ} {i : ι} {t : Task L σ ρ} (hg : sys.Guards l p)
    (hd : sys.Disciplined rank) (hf : (sys.thread i).task.Finished) (ht : t.Respects l p []) :
    (sys.put i ⟨(sys.thread i).held, t⟩).Guards l p := by
  intro j
  by_cases hj : j = i
  · subst hj
    rw [put_self, hd.held_of_finished hf]
    exact ht
  · rw [put_of_ne sys _ hj]
    exact hg j

/-- **The frame rule.** Under a thread that holds the lock, no other changes what it protects. -/
theorem Step.frame {sys sys' : Threads ι L σ ρ} {i j : ι} (hs : Step sys i sys')
    (hg : sys.Guards l p) (hd : sys.Disciplined rank) (hne : j ≠ i) {m : Mode}
    (hh : sys.Holds j l m) : p sys'.shared = p sys.shared := by
  cases hs with
  | acquire _ _ => rfl
  | release _ => rfl
  | act ht =>
    have h := hg i
    rw [ht] at h
    rcases h.1 with hwrite | hsame
    · obtain ⟨-, hread⟩ := hd.exclusive j i l m .write hne hh hwrite
      exact absurd hread (by decide)
    · exact hsame sys.shared

theorem Reach.guards {spawns : σ → ι → Task L σ ρ → Prop} {sys₀ sys : Threads ι L σ ρ}
    {visited : List σ} (hr : Reach spawns sys₀ visited sys) (hd : sys₀.Disciplined rank)
    (hg : sys₀.Guards l p)
    (hspawns : ∀ {s i t}, spawns s i t → t.Ordered rank [] ∧ t.Respects l p []) :
    sys.Guards l p := by
  refine hr.invariant (I := fun _ sys => sys.Guards l p) hg ?_ ?_
  · intro visited sys sys' i _ ih hs
    exact ih.step hs
  · intro visited sys i t hr ih hf hsp
    exact ih.spawn (hr.disciplined hd fun h => (hspawns h).1) hf (hspawns hsp).2

/-- Threads that hold nothing and have nothing to do. -/
def Idle (sys : Threads ι L σ ρ) : Prop :=
  ∀ i, (sys.thread i).held = [] ∧ (sys.thread i).task.Finished

omit [DecidableEq ι] in
theorem Idle.disciplined {sys : Threads ι L σ ρ} (h : sys.Idle) (rank : L → Nat) :
    sys.Disciplined rank := by
  constructor
  · intro i
    obtain ⟨r, hr⟩ := (h i).2
    rw [hr]
    exact (h i).1
  · intro i j l m m' _ hi _
    unfold Holds at hi
    rw [(h i).1] at hi
    exact absurd hi (by simp)

omit [DecidableEq ι] in
theorem Idle.guards {sys : Threads ι L σ ρ} (h : sys.Idle) (l : L) (p : σ → α) :
    sys.Guards l p := by
  intro i
  obtain ⟨r, hr⟩ := (h i).2
  rw [hr]
  trivial

omit [DecidableEq L] [DecidableEq ι] in
theorem Idle.within {sys : Threads ι L σ ρ} (h : sys.Idle) (n : Nat) (i : ι) :
    (sys.thread i).task.Within n := by
  obtain ⟨r, hr⟩ := (h i).2
  rw [hr]
  trivial

/-! ## Replaying a schedule -/

/-- A schedule's entry: a step of a thread, or a new task for it. -/
inductive Move (ι δ : Type) where
  | step (i : ι)
  | spawn (i : ι) (d : δ)

section Replay

variable [Fintype ι]

instance (sys : Threads ι L σ ρ) (l : L) (m : Mode) : Decidable (sys.Free l m) :=
  decidable_of_iff (∀ j, ∀ h ∈ (sys.thread j).held, h.1 = l → m = .read ∧ h.2 = .read)
    ⟨fun hf j m' hh => hf j (l, m') hh rfl, fun hf j h hh hl => hf j h.2 (by
      unfold Holds
      rw [← hl]
      exact hh)⟩

/-- The next instruction of a thread, if it can be taken. -/
def next (sys : Threads ι L σ ρ) (i : ι) : Option (Threads ι L σ ρ) :=
  match (sys.thread i).task with
  | .done _ => none
  | .acquire l m rest =>
    if sys.Free l m then some (sys.put i ⟨(l, m) :: (sys.thread i).held, rest⟩) else none
  | .release l rest => some (sys.put i ⟨Task.without l (sys.thread i).held, rest⟩)
  | .act f rest => some (Threads.put { sys with shared := f sys.shared } i
      ⟨(sys.thread i).held, rest sys.shared⟩)

theorem step_of_next {sys sys' : Threads ι L σ ρ} {i : ι} (h : sys.next i = some sys') :
    Step sys i sys' := by
  unfold next at h
  cases ht : (sys.thread i).task with
  | done r => rw [ht] at h; cases h
  | acquire l m rest =>
    rw [ht] at h
    dsimp only at h
    split at h
    · rename_i hfree
      cases h
      exact .acquire ht hfree
    · cases h
  | release l rest =>
    rw [ht] at h
    cases h
    exact .release ht
  | act f rest =>
    rw [ht] at h
    cases h
    exact .act ht

instance (sys : Threads ι L σ ρ) (i : ι) (l : L) (m : Mode) : Decidable (sys.Wants i l m) :=
  match h : (sys.thread i).task with
  | .acquire l' m' rest => decidable_of_iff (l' = l ∧ m' = m)
      ⟨fun ⟨hl, hm⟩ => ⟨rest, by rw [h, hl, hm]⟩, fun ⟨_, h'⟩ => by
        rw [h] at h'
        cases h'
        exact ⟨rfl, rfl⟩⟩
  | .done .. => isFalse fun ⟨_, h'⟩ => by rw [h] at h'; cases h'
  | .release .. => isFalse fun ⟨_, h'⟩ => by rw [h] at h'; cases h'
  | .act .. => isFalse fun ⟨_, h'⟩ => by rw [h] at h'; cases h'

instance (t : Task L σ ρ) : Decidable t.Finished :=
  match t with
  | .done r => isTrue ⟨r, rfl⟩
  | .acquire .. => isFalse fun ⟨_, h⟩ => by cases h
  | .release .. => isFalse fun ⟨_, h⟩ => by cases h
  | .act .. => isFalse fun ⟨_, h⟩ => by cases h

variable {δ : Type} (toTask : δ → Task L σ ρ) (ok : σ → ι → δ → Prop)
  [∀ s i d, Decidable (ok s i d)]

/-- A schedule carried out; `none` when one of its entries cannot be. -/
def play (sys : Threads ι L σ ρ) (visited : List σ) :
    List (Move ι δ) → Option (List σ × Threads ι L σ ρ)
  | [] => some (visited, sys)
  | .step i :: moves => match sys.next i with
    | some sys' => play sys' (sys'.shared :: visited) moves
    | none => none
  | .spawn i d :: moves =>
    if (sys.thread i).task.Finished ∧ ok sys.shared i d then
      play (sys.put i ⟨(sys.thread i).held, toTask d⟩) visited moves
    else none

/-- A schedule that is carried out is a run. -/
theorem Reach.of_play {spawns : σ → ι → Task L σ ρ → Prop}
    (hok : ∀ s i d, ok s i d → spawns s i (toTask d)) {sys₀ : Threads ι L σ ρ}
    {moves : List (Move ι δ)} : ∀ {visited visited' : List σ} {sys sys' : Threads ι L σ ρ},
    Reach spawns sys₀ visited sys → play toTask ok sys visited moves = some (visited', sys') →
    Reach spawns sys₀ visited' sys' := by
  induction moves with
  | nil =>
    intro visited visited' sys sys' hr h
    cases h
    exact hr
  | cons move moves ih =>
    intro visited visited' sys sys' hr h
    unfold play at h
    cases move with
    | step i =>
      dsimp only at h
      cases hn : sys.next i with
      | none => rw [hn] at h; cases h
      | some sys₁ =>
        rw [hn] at h
        exact ih (.step i hr (step_of_next hn)) h
    | spawn i d =>
      dsimp only at h
      split at h
      · rename_i hadmit
        exact ih (.spawn i _ hr hadmit.1 (hok _ _ _ hadmit.2)) h
      · cases h

end Replay

end Threads

end Trv1Chain.Lib
