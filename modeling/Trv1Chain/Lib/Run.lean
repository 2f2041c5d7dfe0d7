import Mathlib.Data.List.Basic
import Mathlib.Data.List.Nodup
import Mathlib.Order.Basic

/-!
# Runs of a machine that answers

A machine here is a function `step : σ → ε → Option (σ × List ω)`: given a state and an event it
either moves and answers with a list of outputs, or stops (`none`, a panic in the modelled code).
A `Run` records every turn the machine took, newest first, so a property may speak of what was
delivered and of what was answered as well as of the state reached.

The guard `G` says which events may arrive in which state. It is how a run is restricted to the
inputs a result is about, and `fun _ _ => True` is the run on any input at all.
-/

set_option autoImplicit false

namespace Trv1Chain.Lib

/-- One turn of a machine: the state before, the event, the state after, the answers. -/
structure Turn (σ ε ω : Type) where
  before : σ
  event : ε
  after : σ
  out : List ω

variable {σ ε ω : Type}

/-- `Run step G s₀ h s`: from `s₀`, through events the guard admits, the machine took the turns
`h` (newest first) and is now in `s`. -/
inductive Run (step : σ → ε → Option (σ × List ω)) (G : σ → ε → Prop) (s₀ : σ) :
    List (Turn σ ε ω) → σ → Prop
  | init : Run step G s₀ [] s₀
  | turn {h : List (Turn σ ε ω)} {s s' : σ} {e : ε} {out : List ω} :
      Run step G s₀ h s → G s e → step s e = some (s', out) →
      Run step G s₀ (⟨s, e, s', out⟩ :: h) s'

/-- Everything a run answered, newest turn first. -/
def outputs (h : List (Turn σ ε ω)) : List ω := h.flatMap Turn.out

@[simp] theorem outputs_nil : outputs ([] : List (Turn σ ε ω)) = [] := rfl

@[simp] theorem outputs_cons (t : Turn σ ε ω) (h : List (Turn σ ε ω)) :
    outputs (t :: h) = t.out ++ outputs h := rfl

@[simp] theorem outputs_append (h h' : List (Turn σ ε ω)) :
    outputs (h ++ h') = outputs h ++ outputs h' := List.flatMap_append

theorem mem_outputs {h : List (Turn σ ε ω)} {o : ω} :
    o ∈ outputs h ↔ ∃ t ∈ h, o ∈ t.out := by
  simp [outputs]

/-- Everything a run answered, in the order it was answered. -/
def chronicle (h : List (Turn σ ε ω)) : List ω := h.reverse.flatMap Turn.out

@[simp] theorem chronicle_nil : chronicle ([] : List (Turn σ ε ω)) = [] := rfl

@[simp] theorem chronicle_cons (t : Turn σ ε ω) (h : List (Turn σ ε ω)) :
    chronicle (t :: h) = chronicle h ++ t.out := by
  simp [chronicle]

/-- A statement about every entry of a list and what comes after it is one about the head and one
about the tail. -/
theorem forall_suffix_cons {α : Type} {P : α → List α → Prop} {a : α} {l : List α} :
    (∀ x past, x :: past <:+ a :: l → P x past) ↔ P a l ∧ ∀ x past, x :: past <:+ l → P x past := by
  constructor
  · intro h
    refine ⟨h a l (List.suffix_refl _), fun x past hsuf => ?_⟩
    exact h x past (hsuf.trans (List.suffix_cons a l))
  · rintro ⟨hhead, htail⟩ x past hsuf
    rcases List.suffix_cons_iff.mp hsuf with heq | hsuf
    · obtain ⟨rfl, rfl⟩ := List.cons.inj heq
      exact hhead
    · exact htail x past hsuf

namespace Run

variable {step : σ → ε → Option (σ × List ω)} {G : σ → ε → Prop} {s₀ : σ}

/-- **The invariant rule.** What holds at the start and survives every admitted turn holds of
every run. The invariant may mention the history, and may use that the turn's own start was
reached by a run. -/
theorem invariant {I : List (Turn σ ε ω) → σ → Prop} (base : I [] s₀)
    (ind : ∀ {h s e s' out}, Run step G s₀ h s → I h s → G s e →
      step s e = some (s', out) → I (⟨s, e, s', out⟩ :: h) s') :
    ∀ {h : List (Turn σ ε ω)} {s : σ}, Run step G s₀ h s → I h s := by
  intro h s hr
  induction hr with
  | init => exact base
  | turn hr hg hs ih => exact ind hr ih hg hs

/-- **An exact condition for an invariant.** When a turn from a state with `I` leads to one with
`I` exactly if it meets `P`, a run stays in `I` exactly if all its turns meet `P`. The invariant may
mention the history. -/
theorem history_iff {I : List (Turn σ ε ω) → σ → Prop} {P : σ → ε → Prop} (base : I [] s₀)
    (ind : ∀ {h s e s' out}, Run step G s₀ h s → I h s → step s e = some (s', out) →
      (I (⟨s, e, s', out⟩ :: h) s' ↔ P s e))
    {h : List (Turn σ ε ω)} {s : σ} (hr : Run step G s₀ h s) :
    (∀ t past, t :: past <:+ h → I (t :: past) t.after) ↔ ∀ t ∈ h, P t.before t.event := by
  have key : ((∀ t past, t :: past <:+ h → I (t :: past) t.after) ↔
      ∀ t ∈ h, P t.before t.event) ∧
      ((∀ t past, t :: past <:+ h → I (t :: past) t.after) → I h s) := by
    refine hr.invariant (I := fun h s =>
      ((∀ t past, t :: past <:+ h → I (t :: past) t.after) ↔ ∀ t ∈ h, P t.before t.event) ∧
        ((∀ t past, t :: past <:+ h → I (t :: past) t.after) → I h s)) ⟨by simp, fun _ => base⟩ ?_
    intro h s e s' out hrun ih _ hs
    refine ⟨?_, fun hall => (forall_suffix_cons.mp hall).1⟩
    rw [forall_suffix_cons, List.forall_mem_cons, ← ih.1, and_congr_left_iff]
    intro hall
    exact ind hrun (ih.2 hall) hs
  exact key.1

/-- The same for an invariant of the state alone. -/
theorem always_iff {I : σ → Prop} {P : σ → ε → Prop} (base : I s₀)
    (ind : ∀ {s e s' out}, I s → step s e = some (s', out) → (I s' ↔ P s e))
    {h : List (Turn σ ε ω)} {s : σ} (hr : Run step G s₀ h s) :
    (∀ t ∈ h, I t.after) ↔ ∀ t ∈ h, P t.before t.event := by
  rw [← hr.history_iff (I := fun _ s => I s) base fun _ => ind]
  constructor
  · intro hall t past hsuf
    exact hall t (hsuf.subset List.mem_cons_self)
  · intro hall t ht
    obtain ⟨later, past, rfl⟩ := List.append_of_mem ht
    exact hall t past (List.suffix_append later _)

/-- A turn of a run was taken from the state its past had reached, and admitted there. -/
theorem of_suffix {h past : List (Turn σ ε ω)} {s : σ} (hr : Run step G s₀ h s)
    {t : Turn σ ε ω} (hsuf : t :: past <:+ h) :
    Run step G s₀ past t.before ∧ G t.before t.event ∧
      step t.before t.event = some (t.after, t.out) := by
  induction hr with
  | init => exact absurd (List.suffix_nil.mp hsuf) (by simp)
  | turn hr hg hs ih =>
    rcases List.suffix_cons_iff.mp hsuf with heq | hsuf
    · obtain ⟨rfl, rfl⟩ := List.cons.inj heq
      exact ⟨hr, hg, hs⟩
    · exact ih hsuf

theorem of_mem {h : List (Turn σ ε ω)} {s : σ} (hr : Run step G s₀ h s)
    {t : Turn σ ε ω} (ht : t ∈ h) :
    ∃ h', t :: h' <:+ h ∧ Run step G s₀ h' t.before ∧ G t.before t.event ∧
      step t.before t.event = some (t.after, t.out) := by
  obtain ⟨later, past, rfl⟩ := List.append_of_mem ht
  exact ⟨past, List.suffix_append _ _, hr.of_suffix (List.suffix_append _ _)⟩

theorem single {e : ε} (hg : G s₀ e) (h : (step s₀ e).isSome = true) :
    Run step G s₀ [⟨s₀, e, ((step s₀ e).get h).1, ((step s₀ e).get h).2⟩]
      ((step s₀ e).get h).1 :=
  .turn .init hg (Option.some_get h).symm

theorem append {h h' : List (Turn σ ε ω)} {s s' : σ} (hr : Run step G s₀ h s)
    (hr' : Run step G s h' s') : Run step G s₀ (h' ++ h) s' := by
  induction hr' with
  | init => exact hr
  | turn _ hg hs ih => exact .turn ih hg hs

/-- A run goes through the state its past reached. -/
theorem split {h h' : List (Turn σ ε ω)} {s : σ} (hr : Run step G s₀ (h' ++ h) s) :
    ∃ m, Run step G s₀ h m ∧ Run step G m h' s := by
  induction h' generalizing s with
  | nil => exact ⟨s, hr, .init⟩
  | cons t h' ih =>
    cases hr with
    | turn hr hg hs =>
      obtain ⟨m, hpast, hlater⟩ := ih hr
      exact ⟨m, hpast, .turn hlater hg hs⟩

/-- A run, seen from its `n`-th latest turn. -/
theorem at_turn {h : List (Turn σ ε ω)} {s : σ} (hr : Run step G s₀ h s) {n : Nat}
    (hn : n < h.length) : Run step G s₀ (h.take n ++ h[n] :: h.drop (n + 1)) s := by
  rw [← List.drop_eq_getElem_cons hn, List.take_append_drop]
  exact hr

theorem weaken {G' : σ → ε → Prop} {h : List (Turn σ ε ω)} {s : σ}
    (hr : Run step G s₀ h s) (hw : ∀ s e, G s e → G' s e) : Run step G' s₀ h s := by
  induction hr with
  | init => exact .init
  | turn _ hg hs ih => exact .turn ih (hw _ _ hg) hs

/-- A run all of whose turns meet a guard is a run under that guard. -/
theorem restrict {G' : σ → ε → Prop} {h : List (Turn σ ε ω)} {s : σ} (hr : Run step G s₀ h s)
    (hG : ∀ t ∈ h, G' t.before t.event) : Run step G' s₀ h s := by
  induction hr with
  | init => exact .init
  | turn _ _ hs ih =>
    rw [List.forall_mem_cons] at hG
    exact .turn (ih hG.2) hG.1 hs

/-! ### Replaying events -/

/-- The turns and the last state of the machine on a list of events, oldest event first; `none`
when one of them stops it. -/
def replay (step : σ → ε → Option (σ × List ω)) (s : σ) (h : List (Turn σ ε ω)) :
    List ε → Option (List (Turn σ ε ω) × σ)
  | [] => some (h, s)
  | e :: es => match step s e with
    | some (s', out) => replay step s' (⟨s, e, s', out⟩ :: h) es
    | none => none

theorem mem_of_replay {es : List ε} : ∀ {h h' : List (Turn σ ε ω)} {s s' : σ} {t : Turn σ ε ω},
    replay step s h es = some (h', s') → t ∈ h → t ∈ h' := by
  induction es with
  | nil => intro h h' s s' t he ht; cases he; exact ht
  | cons e es ih =>
    intro h h' s s' t he ht
    unfold replay at he
    cases hs : step s e with
    | none => rw [hs] at he; cases he
    | some r => rw [hs] at he; exact ih he (List.mem_cons_of_mem _ ht)

/-- A replay whose every turn the guard admits is a run. -/
theorem of_replay {es : List ε} : ∀ {h h' : List (Turn σ ε ω)} {s s' : σ},
    Run step G s₀ h s → replay step s h es = some (h', s') →
    (∀ t ∈ h', G t.before t.event) → Run step G s₀ h' s' := by
  induction es with
  | nil =>
    intro h h' s s' hr he _
    cases he
    exact hr
  | cons e es ih =>
    intro h h' s s' hr he hG
    unfold replay at he
    cases hs : step s e with
    | none => rw [hs] at he; cases he
    | some r =>
      rw [hs] at he
      have hmem : ⟨s, e, r.1, r.2⟩ ∈ h' := mem_of_replay he List.mem_cons_self
      exact ih (.turn hr (hG _ hmem) hs) he hG

/-- **A run shown by its replay.** Whether the replay ends, whether the guard admits its turns and
what it shows are one question, so a concrete run is evaluated once. -/
theorem exists_of_replay (es : List ε) {P : List (Turn σ ε ω) → σ → Prop}
    (h : ∃ r, r ∈ replay step s₀ [] es ∧ (∀ t ∈ r.1, G t.before t.event) ∧ P r.1 r.2) :
    ∃ hist s, Run step G s₀ hist s ∧ P hist s := by
  obtain ⟨r, hr, hG, hP⟩ := h
  exact ⟨r.1, r.2, of_replay .init hr hG, hP⟩

theorem of_replay_get {es : List ε} (h : (replay step s₀ [] es).isSome = true)
    (hG : ∀ t ∈ ((replay step s₀ [] es).get h).1, G t.before t.event) :
    Run step G s₀ ((replay step s₀ [] es).get h).1 ((replay step s₀ [] es).get h).2 :=
  of_replay .init (Option.some_get h).symm hG

/-! ### Stamped outputs

Some answers of a machine carry a time: the reading of a clock the machine only moves forward.
When such an answer is given only by a turn that moves the clock, and bears the new reading, no
two answers of a run bear the same. -/

variable {T : Type} [Preorder T]

/-- The clock never goes back, and a turn gives at most one stamped answer, which bears the
reading the turn moved the clock to. -/
def Ticks (clock : σ → T) (stamp : ω → Option T) (s s' : σ) (out : List ω) : Prop :=
  clock s ≤ clock s' ∧
    (out.filterMap stamp = [] ∨ out.filterMap stamp = [clock s'] ∧ clock s < clock s')

variable {clock : σ → T} {stamp : ω → Option T}

/-- The stamps of a run descend strictly from its newest answer to its oldest, and none is
ahead of the clock. -/
theorem stamps_sorted
    (ticks : ∀ {h s e s' out}, Run step G s₀ h s → G s e → step s e = some (s', out) →
      Ticks clock stamp s s' out)
    {h : List (Turn σ ε ω)} {s : σ} (hr : Run step G s₀ h s) :
    ((outputs h).filterMap stamp).Pairwise (· > ·) ∧
      ∀ t ∈ (outputs h).filterMap stamp, t ≤ clock s := by
  refine hr.invariant (I := fun h s => ((outputs h).filterMap stamp).Pairwise (· > ·) ∧
    ∀ t ∈ (outputs h).filterMap stamp, t ≤ clock s) ?_ ?_
  · simp
  · intro h s e s' out hr ih hg hs
    obtain ⟨hle, hout⟩ := ticks hr hg hs
    rw [outputs_cons, List.filterMap_append]
    rcases hout with hnil | ⟨hone, hlt⟩
    · rw [hnil, List.nil_append]
      exact ⟨ih.1, fun t ht => le_trans (ih.2 t ht) hle⟩
    · rw [hone, List.singleton_append]
      refine ⟨List.Pairwise.cons (fun t ht => lt_of_le_of_lt (ih.2 t ht) hlt) ih.1, ?_⟩
      intro t ht
      rcases List.mem_cons.mp ht with rfl | ht
      · exact le_refl _
      · exact le_trans (ih.2 t ht) hle

/-- Every stamp of a run is later than the clock the run started with. -/
theorem stamps_later
    (ticks : ∀ {h s e s' out}, Run step G s₀ h s → G s e → step s e = some (s', out) →
      Ticks clock stamp s s' out)
    {h : List (Turn σ ε ω)} {s : σ} (hr : Run step G s₀ h s) :
    ∀ t ∈ (outputs h).filterMap stamp, clock s₀ < t := by
  have key : clock s₀ ≤ clock s ∧ ∀ t ∈ (outputs h).filterMap stamp, clock s₀ < t := by
    refine hr.invariant (I := fun h s => clock s₀ ≤ clock s ∧
      ∀ t ∈ (outputs h).filterMap stamp, clock s₀ < t) ⟨le_refl _, by simp⟩ ?_
    intro h s e s' out hr ih hg hs
    obtain ⟨hle, hout⟩ := ticks hr hg hs
    refine ⟨le_trans ih.1 hle, ?_⟩
    intro t ht
    rw [outputs_cons, List.filterMap_append, List.mem_append] at ht
    rcases ht with ht | ht
    · rcases hout with hnil | ⟨hone, hlt⟩
      · rw [hnil] at ht; exact absurd ht (by simp)
      · rw [hone, List.mem_singleton] at ht
        rw [ht]
        exact lt_of_le_of_lt ih.1 hlt
    · exact ih.2 t ht
  exact key.2

/-- **At most one answer of a run bears a given stamp.** -/
theorem stamp_count [DecidableEq T]
    (ticks : ∀ {h s e s' out}, Run step G s₀ h s → G s e → step s e = some (s', out) →
      Ticks clock stamp s s' out)
    {h : List (Turn σ ε ω)} {s : σ} (hr : Run step G s₀ h s) (t : T) :
    (outputs h).countP (fun o => stamp o == some t) ≤ 1 := by
  have hnd : ((outputs h).filterMap stamp).Nodup :=
    (hr.stamps_sorted ticks).1.imp fun hgt => (ne_of_lt hgt).symm
  rw [← List.count_filterMap]
  exact List.nodup_iff_count_le_one.mp hnd t

end Run

/-! ### Every turn and its past -/

instance decidableForallSuffix {α : Type} (P : α → List α → Prop) [∀ x past, Decidable (P x past)] :
    (l : List α) → Decidable (∀ x past, x :: past <:+ l → P x past)
  | [] => isTrue fun _ _ h => absurd (List.suffix_nil.mp h) (List.cons_ne_nil _ _)
  | _ :: l => @decidable_of_iff _ _ forall_suffix_cons.symm
      (@instDecidableAnd _ _ _ (decidableForallSuffix P l))

/-- Two members of a list that pass a test only one position passes are the same. -/
theorem eq_of_countP_le_one {α : Type} {p : α → Bool} {x y : α} : ∀ {l : List α},
    l.countP p ≤ 1 → x ∈ l → y ∈ l → p x = true → p y = true → x = y := by
  intro l
  induction l with
  | nil => intro _ hx; exact absurd hx (by simp)
  | cons a l ih =>
    intro hle hx hy hpx hpy
    have hpos : ∀ z ∈ l, p z = true → 0 < l.countP p :=
      fun z hz hpz => List.countP_pos_iff.mpr ⟨z, hz, hpz⟩
    rw [List.countP_cons] at hle
    rcases List.mem_cons.mp hx with rfl | hx' <;> rcases List.mem_cons.mp hy with rfl | hy'
    · rfl
    · have := hpos y hy' hpy
      rw [if_pos hpx] at hle; omega
    · have := hpos x hx' hpx
      rw [if_pos hpy] at hle; omega
    · exact ih (by omega) hx' hy' hpx hpy

end Trv1Chain.Lib
