import Trv1Chain.Lib.Locks

/-!
# What a task sees beside other threads

A task may find a different state at each of its actions, each later than the one before
(`Threads.answers`). An `Atomic` task does not: it has one action at which it does what a given
function of the state does, and what it has learnt before that is protected by a lock it still
holds. Such a task ends as if all of it had happened at one moment between its start and its end
(`Threads.linearizes`).
-/

set_option autoImplicit false

namespace Trv1Chain.Lib

namespace Task

variable {L σ ρ α : Type}

/-- Nothing is left but to give locks back and to answer `r`. -/
def Closing (r : ρ) : Task L σ ρ → Prop
  | .done r' => r' = r
  | .acquire .. => False
  | .release _ rest => rest.Closing r
  | .act .. => False

/-- The answer, when the actions find these states. -/
def answer : Task L σ ρ → List σ → Option ρ
  | .done r, [] => some r
  | .done _, _ :: _ => none
  | .acquire _ _ rest, seen => rest.answer seen
  | .release _ rest, seen => rest.answer seen
  | .act _ _, [] => none
  | .act _ rest, s :: seen => (rest s).answer seen

/-- No action changes `p`. -/
def Silent (p : σ → α) : Task L σ ρ → Prop
  | .done _ => True
  | .acquire _ _ rest => rest.Silent p
  | .release _ rest => rest.Silent p
  | .act f rest => (∀ s, p (f s) = p s) ∧ ∀ s, (rest s).Silent p

variable [DecidableEq L]

/-- The task does what `spec` does, at one action. Before it, it may look at `p` with `l` held, and
then knows the value of `p` for as long as it holds `l`. -/
def Atomic (spec : σ → σ × ρ) (l : L) (p : σ → α) :
    Option α → List (L × Mode) → Task L σ ρ → Prop
  | _, _, .done _ => False
  | known, held, .acquire l' m rest => rest.Atomic spec l p known ((l', m) :: held)
  | known, held, .release l' rest =>
    rest.Atomic spec l p (if l' = l then none else known) (without l' held)
  | known, held, .act f rest => ∀ s, (∀ a, known = some a → p s = a) →
      f s = (spec s).1 ∧ (rest s).Closing (spec s).2 ∨
      f s = s ∧ (∃ m, (l, m) ∈ held) ∧ (rest s).Atomic spec l p (some (p s)) held

theorem mem_without_of_ne {l l' : L} {m : Mode} {held : List (L × Mode)} (hm : (l, m) ∈ held)
    (hne : l ≠ l') : (l, m) ∈ without l' held :=
  List.mem_filter.mpr ⟨hm, decide_eq_true hne⟩

end Task

namespace Threads

variable {ι L σ ρ α : Type} [DecidableEq ι] [DecidableEq L] {rank : L → Nat} {l : L} {p : σ → α}

/-- A thread whose actions keep `p` keeps it. -/
theorem Step.silent {sys sys' : Threads ι L σ ρ} {i : ι} (hs : Step sys i sys')
    (h : (sys.thread i).task.Silent p) :
    p sys'.shared = p sys.shared ∧ (sys'.thread i).task.Silent p := by
  cases hs with
  | acquire ht _ =>
    rw [ht] at h
    rw [put_self]
    exact ⟨rfl, h⟩
  | release ht =>
    rw [ht] at h
    rw [put_self]
    exact ⟨rfl, h⟩
  | act ht =>
    rw [ht] at h
    rw [put_self]
    exact ⟨h.1 sys.shared, h.2 sys.shared⟩

/-! ## Every task -/

/-- What is left of a task after the states it has seen. -/
def Seen (t : Task L σ ρ) (j : ι) (visited : List σ) (sys : Threads ι L σ ρ) : Prop :=
  ∃ seen, seen.Sublist visited.tail.reverse ∧
    ∀ more, t.answer (seen ++ more) = (sys.thread j).task.answer more

theorem Seen.step {t : Task L σ ρ} {j i : ι} {visited : List σ} {sys sys' : Threads ι L σ ρ}
    (h : Seen t j visited sys) (hv : ∃ earlier, visited = sys.shared :: earlier)
    (hs : Step sys i sys') : Seen t j (sys'.shared :: visited) sys' := by
  obtain ⟨seen, hsub, hleft⟩ := h
  obtain ⟨earlier, rfl⟩ := hv
  have hlater : ∀ s, (s :: sys.shared :: earlier).tail.reverse = earlier.reverse ++ [sys.shared] :=
    fun s => List.reverse_cons
  unfold Seen
  rw [hlater]
  have hkeep : seen.Sublist (earlier.reverse ++ [sys.shared]) := 
    hsub.trans (List.sublist_append_left ..)
  by_cases hj : j = i
  · subst hj
    cases hs with
    | acquire ht _ =>
      rw [ht] at hleft
      refine ⟨seen, hkeep, fun more => ?_⟩
      rw [put_self]
      exact hleft more
    | release ht =>
      rw [ht] at hleft
      refine ⟨seen, hkeep, fun more => ?_⟩
      rw [put_self]
      exact hleft more
    | act ht =>
      -- the action finds the present state
      rw [ht] at hleft
      refine ⟨seen ++ [sys.shared], hsub.append (List.Sublist.refl _), fun more => ?_⟩
      rw [put_self, List.append_assoc]
      exact hleft (sys.shared :: more)
  · refine ⟨seen, hkeep, fun more => ?_⟩
    rw [hs.other hj]
    exact hleft more

/-- **A task answers from states met while it ran, in their order.** -/
theorem answers {spawns : σ → ι → Task L σ ρ → Prop} {sys₁ sys₂ : Threads ι L σ ρ}
    {visited : List σ} {j : ι} (hr : Reach spawns sys₁ visited sys₂)
    (hspawns : ∀ {s i t}, spawns s i t → i ≠ j) {r : ρ}
    (hend : (sys₂.thread j).task = .done r) :
    ∃ seen, seen.Sublist visited.reverse ∧ (sys₁.thread j).task.answer seen = some r := by
  have hseen : Seen (sys₁.thread j).task j visited sys₂ := by
    refine hr.invariant (I := fun visited sys => Seen (sys₁.thread j).task j visited sys)
      ⟨[], List.nil_sublist _, fun more => rfl⟩ ?_ ?_
    · intro visited sys sys' i hr ih hs
      exact ih.step hr.visited_eq hs
    · intro visited sys i t hr ih hf hsp
      unfold Seen
      rw [put_of_ne sys _ (Ne.symm (hspawns hsp))]
      exact ih
  obtain ⟨seen, hsub, hleft⟩ := hseen
  refine ⟨seen, hsub.trans (List.reverse_sublist.mpr (List.tail_sublist visited)), ?_⟩
  have hall := hleft []
  rw [List.append_nil, hend] at hall
  exact hall

/-! ## Atomic tasks -/

/-- `s` was met and became `s'` next, or stayed what it was. -/
def Moment (visited : List σ) (s s' : σ) : Prop :=
  s ∈ visited ∧ (s' = s ∨ [s', s] <:+: visited)

theorem Moment.cons {visited : List σ} {s s' : σ} (h : Moment visited s s') (x : σ) :
    Moment (x :: visited) s s' :=
  ⟨List.mem_cons_of_mem x h.1, h.2.imp_right fun hin => List.infix_cons hin⟩

/-- A thread with an atomic task: still before its action, knowing what it knows, or past it. -/
def Stage (spec : σ → σ × ρ) (l : L) (p : σ → α) (j : ι) (visited : List σ)
    (sys : Threads ι L σ ρ) : Prop :=
  (∃ known, (sys.thread j).task.Atomic spec l p known (sys.thread j).held ∧
      ∀ a, known = some a → (∃ m, sys.Holds j l m) ∧ p sys.shared = a) ∨
  ∃ s, Moment visited s (spec s).1 ∧ (sys.thread j).task.Closing (spec s).2

variable {spec : σ → σ × ρ} {j : ι}

/-- The thread's own step. -/
theorem Stage.own {visited : List σ} {sys sys' : Threads ι L σ ρ}
    (h : Stage spec l p j visited sys) (hv : ∃ earlier, visited = sys.shared :: earlier)
    (hs : Step sys j sys') :
    Stage spec l p j (sys'.shared :: visited) sys' := by
  rcases h with ⟨known, hat, hknown⟩ | ⟨s, hmoment, hclose⟩
  · cases hs with
    | acquire ht _ =>
      rw [ht] at hat
      refine Or.inl ⟨known, by rw [put_self]; exact hat, fun a ha => ?_⟩
      obtain ⟨⟨m, hm⟩, hp⟩ := hknown a ha
      refine ⟨⟨m, ?_⟩, hp⟩
      unfold Holds
      rw [put_self]
      exact List.mem_cons_of_mem _ hm
    | @release l' rest ht =>
      rw [ht] at hat
      refine Or.inl ⟨_, by rw [put_self]; exact hat, fun a ha => ?_⟩
      -- what the lock protected is known only if it is another lock that is given back
      by_cases hl : l' = l
      · rw [if_pos hl] at ha
        cases ha
      · rw [if_neg hl] at ha
        obtain ⟨⟨m, hm⟩, hp⟩ := hknown a ha
        refine ⟨⟨m, ?_⟩, hp⟩
        unfold Holds
        rw [put_self]
        exact Task.mem_without_of_ne hm (Ne.symm hl)
    | @act f rest ht =>
      rw [ht] at hat
      rcases hat sys.shared fun a ha => (hknown a ha).2 with ⟨hf, hclose⟩ | ⟨hf, ⟨m, hm⟩, hrest⟩
      · refine Or.inr ⟨sys.shared, ?_, by rw [put_self]; exact hclose⟩
        obtain ⟨earlier, rfl⟩ := hv
        refine ⟨by simp, Or.inr ⟨[], earlier, ?_⟩⟩
        rw [← hf]
        rfl
      · refine Or.inl ⟨some (p sys.shared), by rw [put_self]; exact hrest, fun a ha => ?_⟩
        cases ha
        refine ⟨⟨m, ?_⟩, ?_⟩
        · unfold Holds
          rw [put_self]
          exact hm
        · show p (f sys.shared) = p sys.shared
          rw [hf]
  · refine Or.inr ⟨s, hmoment.cons _, ?_⟩
    cases hs with
    | acquire ht _ => rw [ht] at hclose; exact hclose.elim
    | release ht =>
      rw [ht] at hclose
      rw [put_self]
      exact hclose
    | act ht => rw [ht] at hclose; exact hclose.elim

/-- A step of another thread: what is known is protected. -/
theorem Stage.other {visited : List σ} {sys sys' : Threads ι L σ ρ} {i : ι}
    (h : Stage spec l p j visited sys) (hd : sys.Disciplined rank) (hg : sys.Guards l p)
    (hs : Step sys i sys') (hne : j ≠ i) : Stage spec l p j (sys'.shared :: visited) sys' := by
  unfold Stage Holds
  rw [hs.other hne]
  rcases h with ⟨known, hat, hknown⟩ | ⟨s, hmoment, hclose⟩
  · refine Or.inl ⟨known, hat, fun a ha => ?_⟩
    obtain ⟨⟨m, hm⟩, hp⟩ := hknown a ha
    exact ⟨⟨m, hm⟩, (hs.frame hg hd hne hm).trans hp⟩
  · exact Or.inr ⟨s, hmoment.cons _, hclose⟩

/-- **An atomic task happens at one moment.** The thread `j` is given no other task meanwhile. -/
theorem linearizes {spawns : σ → ι → Task L σ ρ → Prop} {sys₁ sys₂ : Threads ι L σ ρ}
    {visited : List σ} (hr : Reach spawns sys₁ visited sys₂) (hd : sys₁.Disciplined rank)
    (hg : sys₁.Guards l p)
    (hspawns : ∀ {s i t}, spawns s i t → i ≠ j ∧ t.Ordered rank [] ∧ t.Respects l p [])
    (hstart : Stage spec l p j [sys₁.shared] sys₁) {r : ρ}
    (hend : (sys₂.thread j).task = .done r) :
    ∃ s, Moment visited s (spec s).1 ∧ r = (spec s).2 := by
  have hstage : Stage spec l p j visited sys₂ := by
    refine hr.invariant (I := fun visited sys => Stage spec l p j visited sys) hstart ?_ ?_
    · intro visited sys sys' i hr ih hs
      by_cases hne : j = i
      · subst hne
        exact ih.own hr.visited_eq hs
      · exact ih.other (hr.disciplined hd fun h => (hspawns h).2.1)
          (hr.guards hd hg fun h => (hspawns h).2) hs hne
    · intro visited sys i t hr ih hf hsp
      unfold Stage Holds
      rw [put_of_ne sys _ (Ne.symm (hspawns hsp).1)]
      exact ih
  rcases hstage with ⟨known, hat, -⟩ | ⟨s, hmoment, hclose⟩
  · rw [hend] at hat
    exact hat.elim
  · rw [hend] at hclose
    exact ⟨s, hmoment, hclose⟩

end Threads

end Trv1Chain.Lib
