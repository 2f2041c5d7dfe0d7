import Trv1Chain.Proof.ClientSteps

/-!
# Lost updates in the tiered store

A `get` that missed the cache writes back what it read from the files. If a `put` of the same key
completes in between, the promotion overwrites the new value in the cache with the old one, and an
eviction carries it on to the warm tier (`no_lost_update_overwritten`).

Otherwise nothing is lost (`no_lost_update`). Suppose that, when a `put` of `v` under `k` returns,
no other write of `k` is under way and every `get` of `k` beyond the cache has `v` in hand or before
it in the warm tier. Then `Settled` holds: the cache holds nothing but `v` under `k`, and where it
holds nothing the warm tier holds `v` or is about to. Every step of every client keeps it, whatever
the interleaving.
-/

set_option autoImplicit false

namespace Trv1Chain

open Lib

namespace Storage

variable {C : Crates} {K : Set StorageKey} {k : StorageKey} {v : StorageValue}

/-! ## What a client may have in hand -/

/-- A client that does not stand in the way of `v` under `k`: it is not in a write of `k`, and if it
is in a `get` of `k` beyond the cache then it has read `v` or will, given the warm tier's file. -/
def Pc.Agrees (k : StorageKey) (v : StorageValue) (warmFile : Option StorageValue) : Pc → Prop
  | .idle | .getHot _ => True
  | .getWarm key => key = k → warmFile = some v
  | .getCold key | .putWarm key _ | .removeHot key | .removeWarm key _ | .removeCold key _ _ =>
    key ≠ k
  | .hotPut key value after | .insert key value after => key = k → after = .promote ∧ value = v
  | .flush evictedKey evictedValue key value after =>
    (evictedKey = k → evictedValue = v) ∧ (key = k → after = .promote ∧ value = v)

instance (k : StorageKey) (v : StorageValue) (warmFile : Option StorageValue) :
    (pc : Pc) → Decidable (pc.Agrees k v warmFile)
  | .idle | .getHot _ => isTrue trivial
  | .getWarm _ | .hotPut _ _ _ | .insert _ _ _ => inferInstanceAs (Decidable (_ → _))
  | .getCold _ | .putWarm _ _ | .removeHot _ | .removeWarm _ _ | .removeCold _ _ _ =>
    inferInstanceAs (Decidable (_ ≠ _))
  | .flush _ _ _ _ _ => inferInstanceAs (Decidable (_ ∧ _))

namespace Pc

variable {pc : Pc} {st : TieredStorage} {warmFile warmFile' : Option StorageValue}

theorem Agrees.mono (h : pc.Agrees k v warmFile) (hw : warmFile = some v → warmFile' = some v) :
    pc.Agrees k v warmFile' := by
  cases pc with
  | getWarm key => exact fun hkey => hw (h hkey)
  | _ => exact h

/-- What such a client evicts under `k` is `v`. -/
theorem Agrees.eq_of_evicts (h : pc.Agrees k v warmFile) {value : StorageValue}
    (hevicts : pc.evicts = some (k, value)) : value = v := by
  cases pc with
  | flush evictedKey evictedValue key value' after =>
    cases hevicts
    exact h.1 rfl
  | _ => cases hevicts

/-- Once the warm tier has `v`, no step of such a client takes it away. -/
theorem Agrees.warmFile_run (hK : Distinct C K) (hk : k ∈ K) (hkeys : ∀ key ∈ pc.keys, key ∈ K)
    (h : pc.Agrees k v (st.warmFile C k)) (hw : st.warmFile C k = some v) :
    (pc.run C st).1.warmFile C k = some v := by
  rcases run_warmFile hK hk hkeys st with hsame | ⟨value, hevicts⟩ | ⟨value, rfl⟩ | ⟨hotVal, rfl⟩ |
      ⟨hotVal, warmVal, rfl⟩
  · rw [hsame, hw]
  · rw [run_evicts hK hk hevicts, h.eq_of_evicts hevicts]
  · exact absurd rfl h
  · exact absurd rfl h
  · exact absurd rfl h

/-- What such a client writes to the cache under `k` is `v`, and what it takes out is on its way to
the warm tier. -/
theorem Agrees.hot_run (hroom : pc.HasRoom st) (h : pc.Agrees k v (st.warmFile C k))
    (hhot : ∀ w, st.hot.peek k = some w → w = v) :
    (∀ w, (pc.run C st).1.hot.peek k = some w → w = v) ∧
    ((pc.run C st).1.hot.peek k = none →
      st.hot.peek k = none ∨ (pc.run C st).2.pc.evicts = some (k, v)) := by
  rcases run_cache C hroom with hsame | ⟨key, value, after, hpc, -, hpeek⟩ |
      ⟨key, value, after, evictedKey, evictedValue, hpc, hnext, hheld, hpeek⟩ | ⟨key, hpc, hpeek⟩
  · rw [hsame]
    exact ⟨hhot, .inl⟩
  · have hvalue : key = k → value = v := by
      intro hkey
      rcases hpc with rfl | rfl
      · exact (h hkey).2
      · exact (h hkey).2
    rw [hpeek]
    split
    · rename_i hkey
      refine ⟨fun w hw => ?_, fun hnone => nomatch hnone⟩
      rw [← Option.some.inj hw, hvalue hkey.symm]
    · exact ⟨hhot, .inl⟩
  · rw [hpeek, hnext]
    split
    · rename_i hkey
      subst hkey
      refine ⟨fun w hw => (nomatch hw), fun _ => .inr ?_⟩
      rw [← hhot evictedValue hheld]
      rfl
    · exact ⟨hhot, .inl⟩
  · rw [hpeek]
    subst hpc
    rw [if_neg fun hkey => h hkey.symm]
    exact ⟨hhot, .inl⟩

/-- Such a client goes on to be one, if a miss of `k` finds the warm tier with `v`. -/
theorem Agrees.next (h : pc.Agrees k v (st.warmFile C k))
    (hhot : ∀ w, st.hot.peek k = some w → w = v)
    (hmiss : pc.locks = true → st.hot.peek k = none → st.warmFile C k = some v) :
    (pc.run C st).2.pc.Agrees k v (st.warmFile C k) := by
  cases pc with
  | getHot key =>
    rw [next_getHot]
    cases hheld : st.hot.peek key with
    | some value => trivial
    | none =>
      intro hkey
      subst hkey
      exact hmiss rfl hheld
  | getWarm key =>
    rw [next_getWarm]
    cases hfile : st.warmFile C key with
    | none =>
      intro hkey
      subst hkey
      exact absurd (hfile.symm.trans (h rfl)) (Option.some_ne_none v).symm
    | some value =>
      intro hkey
      subst hkey
      exact ⟨rfl, Option.some.inj (hfile.symm.trans (h rfl))⟩
  | getCold key =>
    rw [next_getCold]
    cases st.cold.retrieve C st.fs key with
    | none => trivial
    | some value => exact fun hkey => absurd hkey h
  | putWarm key value => exact fun hkey => absurd hkey h
  | hotPut key value after =>
    rcases st.hot.evict_cases key with ⟨heq, -⟩ |
        ⟨hot, evictedKey, evictedValue, heq, -, hheld, -, -⟩
    · rw [run, heq]
      trivial
    · rw [run, heq]
      refine ⟨fun hkey => ?_, h⟩
      subst hkey
      exact hhot evictedValue hheld
  | flush evictedKey evictedValue key value after => exact h.2
  | removeHot key | removeWarm key hotVal => exact h
  | _ => trivial

/-- A `get` of `k` by such a client answers `v`. -/
theorem Agrees.answer (h : pc.Agrees k v warmFile) (hhot : ∀ w, st.hot.peek k = some w → w = v)
    (hreq : pc.request = some (.get k)) {answer : Answer} (hret : (pc.run C st).2 = .ret answer) :
    answer = .value (some v) := by
  cases pc with
  | getHot key =>
    cases hreq
    rw [next_getHot] at hret
    cases hheld : st.hot.peek k with
    | none =>
      rw [hheld] at hret
      cases hret
    | some w =>
      rw [hheld] at hret
      cases hret
      rw [hhot w hheld]
  | getWarm key =>
    rw [next_getWarm] at hret
    cases hfile : st.warmFile C key <;> rw [hfile] at hret <;> cases hret
  | getCold key =>
    cases hreq
    exact absurd rfl h
  | hotPut key value after =>
    cases after with
    | put => cases hreq
    | promote =>
      cases hreq
      rcases st.hot.evict_cases k with ⟨heq, -⟩ | ⟨hot, evictedKey, evictedValue, heq, -⟩
      · rw [run, heq] at hret
        cases hret
        exact congrArg (fun w => Answer.value (some w)) (h rfl).2
      · rw [run, heq] at hret
        cases hret
  | flush evictedKey evictedValue key value after => cases hret
  | insert key value after =>
    cases after with
    | put => cases hreq
    | promote =>
      cases hreq
      cases hret
      exact congrArg (fun w => Answer.value (some w)) (h rfl).2
  | _ => cases hreq

/-- The step with which a `put` returns leaves its value in the cache. -/
theorem run_put (hroom : pc.HasRoom st) (hreq : pc.request = some (.put k v)) {answer : Answer}
    (hret : (pc.run C st).2 = .ret answer) :
    (pc.run C st).1.hot.peek k = some v ∧ (pc.run C st).1.warmFile C k = st.warmFile C k := by
  cases pc with
  | putWarm key value => cases hret
  | hotPut key value after =>
    cases after with
    | promote => cases hreq
    | put =>
      cases hreq
      rcases st.hot.evict_cases k with ⟨heq, hfits⟩ | ⟨hot, evictedKey, evictedValue, heq, -⟩
      · rw [run, heq]
        exact ⟨(HotCache.peek_insert hfits v k).trans (if_pos rfl), rfl⟩
      · rw [run, heq] at hret
        cases hret
  | flush evictedKey evictedValue key value after => cases hret
  | insert key value after =>
    cases after with
    | promote => cases hreq
    | put =>
      cases hreq
      exact ⟨(HotCache.peek_insert (.inr (hroom rfl)) v k).trans (if_pos rfl), rfl⟩
  | _ => cases hreq

end Pc

/-! ## The invariant -/

namespace Shared

variable {Client : Type} [DecidableEq Client] {s s' : Shared Client} {c : Client}
  {out : List (Report Client)}

/-- **Nothing but `v` is left under `k`**: not in the cache, not in the warm tier unless the cache
has the key, and not in the hands of a client. -/
structure Settled (C : Crates) (k : StorageKey) (v : StorageValue) (s : Shared Client) : Prop where
  hot : ∀ w, s.store.hot.peek k = some w → w = v
  /-- What the cache does not hold is in the warm tier or about to be written to it. -/
  backed : s.store.hot.peek k = none →
    s.store.warmFile C k = some v ∨ ∃ c, (s.pc c).evicts = some (k, v)
  clients : ∀ c, (s.pc c).Agrees k v (s.store.warmFile C k)

theorem holds_of_evicts {pc : Pc} {e : StorageKey × StorageValue} (h : pc.evicts = some e) :
    pc.holds = true := by
  cases pc with
  | flush evictedKey evictedValue key value after => rfl
  | _ => cases h

theorem Settled.step (hK : Distinct C K) (hk : k ∈ K) (ho : s.Orderly K) (hs : s.Settled C k v)
    (h : s.advance C c = some (s', out)) : s'.Settled C k v := by
  obtain ⟨-, hfree, hstore, -, hpc, -⟩ := advance_some h
  have hc := hs.clients c
  have hwarm := hc.warmFile_run hK hk (ho.keys c)
  have hot := hc.hot_run (ho.room c) hs.hot
  -- a client that is about to use the cache has found it unlocked, so nothing is being flushed
  have hmiss : (s.pc c).locks = true → s.store.hot.peek k = none →
      s.store.warmFile C k = some v := by
    intro hlocks hnone
    rcases hs.backed hnone with hfile | ⟨d, hd⟩
    · exact hfile
    · have hlock := (ho.lock d).mpr (holds_of_evicts hd)
      rw [hfree hlocks] at hlock
      cases hlock
  refine ⟨?_, ?_, ?_⟩
  · rw [hstore]
    exact hot.1
  · rw [hstore, hpc]
    intro hnone
    rcases hot.2 hnone with hnone | hevicts
    · rcases hs.backed hnone with hfile | ⟨d, hd⟩
      · exact .inl (hwarm hfile)
      · by_cases hdc : d = c
        · subst hdc
          exact .inl (Pc.run_evicts hK hk hd s.store)
        · exact .inr ⟨d, by rw [Function.update_of_ne hdc]; exact hd⟩
    · exact .inr ⟨c, by rw [Function.update_self]; exact hevicts⟩
  · rw [hstore, hpc]
    intro d
    by_cases hdc : d = c
    · subst hdc
      rw [Function.update_self]
      exact (hc.next hs.hot hmiss).mono hwarm
    · rw [Function.update_of_ne hdc]
      exact (hs.clients d).mono hwarm

/-- No write of `k` begins. -/
def NoWrite (k : StorageKey) (_ : Shared Client) : Move Client → Prop
  | .invoke _ (.put key _) | .invoke _ (.remove key) => key ≠ k
  | .invoke _ (.get _) | .step _ => True

instance (k : StorageKey) (s : Shared Client) : (m : Move Client) → Decidable (NoWrite k s m)
  | .invoke _ (.put _ _) | .invoke _ (.remove _) => inferInstanceAs (Decidable (_ ≠ _))
  | .invoke _ (.get _) | .step _ => isTrue trivial

theorem Settled.invoke (hs : s.Settled C k v) {req : Request}
    (hreq : NoWrite k s (.invoke c req)) (h : s.step C (.invoke c req) = some (s', out)) :
    s'.Settled C k v := by
  obtain ⟨hidle, rfl, -⟩ := invoke_some h
  refine ⟨hs.hot, fun hnone => ?_, fun d => ?_⟩
  · rcases hs.backed hnone with hfile | ⟨d, hd⟩
    · exact .inl hfile
    · refine .inr ⟨d, ?_⟩
      have hdc : d ≠ c := by
        rintro rfl
        rw [hidle] at hd
        cases hd
      show (Function.update s.pc c (.start req) d).evicts = some (k, v)
      rw [Function.update_of_ne hdc]
      exact hd
  · show (Function.update s.pc c (.start req) d).Agrees k v (s.store.warmFile C k)
    by_cases hdc : d = c
    · subst hdc
      rw [Function.update_self]
      cases req with
      | get key => trivial
      | put key value => exact hreq
      | remove key => exact hreq
    · rw [Function.update_of_ne hdc]
      exact hs.clients d

/-- A `put` that returns settles its key, if the other clients agree. -/
theorem settled_of_put (ho : s.Orderly K) (h : s.advance C c = some (s', out)) {answer : Answer}
    (hput : Report.returned c (.put k v) answer ∈ out)
    (hagrees : ∀ d, d ≠ c → (s.pc d).Agrees k v (s.store.warmFile C k)) : s'.Settled C k v := by
  obtain ⟨-, -, hstore, -, hpc, rfl⟩ := advance_some h
  obtain ⟨-, hreq, hret⟩ := returned_mem_reports.mp hput
  obtain ⟨hheld, hfile⟩ := Pc.run_put (ho.room c) hreq hret
  rw [← hstore] at hheld hfile
  refine ⟨fun w hw => ?_, fun hnone => ?_, fun d => ?_⟩
  · exact Option.some.inj (hw.symm.trans hheld)
  · exact absurd (hnone.symm.trans hheld) (Option.some_ne_none v).symm
  · rw [hfile, hpc]
    by_cases hdc : d = c
    · subst hdc
      rw [Function.update_self, hret]
      trivial
    · rw [Function.update_of_ne hdc]
      exact hagrees d hdc

/-- What is reported about `k` names `v`. -/
def Names (k : StorageKey) (v : StorageValue) : Report Client → Prop
  | .returned _ (.get key) answer => key = k → answer = .value (some v)
  | .evicted _ key value => key = k → value = v
  | _ => True

theorem Settled.names (hs : s.Settled C k v) (h : s.advance C c = some (s', out)) :
    ∀ o ∈ out, Names k v o := by
  obtain ⟨-, -, -, -, -, rfl⟩ := advance_some h
  intro o ho
  cases o with
  | returned d req answer =>
    obtain ⟨-, hreq, hret⟩ := returned_mem_reports.mp ho
    cases req with
    | get key =>
      rintro rfl
      exact (hs.clients c).answer hs.hot hreq hret
    | put key value => trivial
    | remove key => trivial
  | evicted d key value =>
    rintro rfl
    exact (hs.clients c).eq_of_evicts (evicted_mem_reports.mp ho).2

/-- **From then on**, as long as no write of `k` begins. -/
theorem Settled.run (hK : Distinct C K) (hk : k ∈ K) (ho : s.Orderly K) (hs : s.Settled C k v)
    {later : List (SharedTurn Client)} (hrun : Interleaved C K s later s')
    (hno : ∀ t ∈ later, NoWrite k t.before t.event) :
    s'.Settled C k v ∧ ∀ o ∈ outputs later, Names k v o := by
  have hrun' : Run (Shared.step C) (fun s m => Keyed K s m ∧ NoWrite k s m) s later s' := by
    refine hrun.restrict fun t ht => ⟨?_, hno t ht⟩
    obtain ⟨-, -, -, hkeyed, -⟩ := hrun.of_mem ht
    exact hkeyed
  have key : s'.Orderly K ∧ s'.Settled C k v ∧ ∀ o ∈ outputs later, Names k v o := by
    refine hrun'.invariant (I := fun later s' => s'.Orderly K ∧ s'.Settled C k v ∧
      ∀ o ∈ outputs later, Names k v o) ⟨ho, hs, by simp⟩ ?_
    rintro later s m s' out - ⟨ho, hs, hnames⟩ ⟨hkeyed, hwrite⟩ hstep
    refine ⟨ho.turn hkeyed hstep, ?_⟩
    rw [outputs_cons]
    cases m with
    | invoke c req =>
      refine ⟨hs.invoke hwrite hstep, ?_⟩
      obtain ⟨-, -, rfl⟩ := invoke_some hstep
      exact hnames
    | step c =>
      refine ⟨hs.step hK hk ho hstep, ?_⟩
      intro o hmem
      rcases List.mem_append.mp hmem with hmem | hmem
      · exact hs.names hstep o hmem
      · exact hnames o hmem
  exact key.2

end Shared

/-! ## Every call returns -/

namespace Pc

/-- How many steps are left at most. -/
def rank : Pc → Nat
  | .idle => 0
  | .insert _ _ _ | .removeCold _ _ _ => 1
  | .flush _ _ _ _ _ | .removeWarm _ _ => 2
  | .hotPut _ _ _ | .removeHot _ => 3
  | .getCold _ | .putWarm _ _ => 4
  | .getWarm _ => 5
  | .getHot _ => 6

theorem rank_pos {pc : Pc} {req : Request} (h : pc.request = some req) : 0 < pc.rank := by
  cases pc with
  | idle => cases h
  | _ => exact Nat.succ_pos _

theorem locks_of_holds {pc : Pc} (h : pc.holds = true) : pc.locks = false := by
  cases pc with
  | flush evictedKey evictedValue key value after => rfl
  | insert key value after => rfl
  | _ => cases h

/-- A step returns, or goes on in the same call with less left to do. -/
theorem run_progress (C : Crates) (st : TieredStorage) {pc : Pc} {req : Request}
    (h : pc.request = some req) :
    (∃ answer, (pc.run C st).2 = .ret answer) ∨
      ∃ pc', (pc.run C st).2 = .goto pc' ∧ pc'.request = some req ∧ pc'.rank < pc.rank := by
  cases pc with
  | idle => cases h
  | getHot key =>
    rw [next_getHot]
    cases st.hot.peek key with
    | none => exact .inr ⟨_, rfl, h, by simp [rank]⟩
    | some value => exact .inl ⟨_, rfl⟩
  | getWarm key =>
    rw [next_getWarm]
    cases st.warmFile C key with
    | none => exact .inr ⟨_, rfl, h, by simp [rank]⟩
    | some value => exact .inr ⟨_, rfl, h, by simp [rank]⟩
  | getCold key =>
    rw [next_getCold]
    cases st.cold.retrieve C st.fs key with
    | none => exact .inl ⟨_, rfl⟩
    | some value => exact .inr ⟨_, rfl, h, by simp [rank]⟩
  | putWarm key value => exact .inr ⟨_, rfl, h, by simp [rank]⟩
  | hotPut key value after =>
    rcases st.hot.evict_cases key with ⟨heq, -⟩ | ⟨hot, evictedKey, evictedValue, heq, -⟩
    · exact .inl ⟨_, by rw [run, heq]; rfl⟩
    · refine .inr ⟨_, by rw [run, heq], ?_, by simp [rank]⟩
      cases after <;> exact h
  | flush evictedKey evictedValue key value after =>
    refine .inr ⟨_, rfl, ?_, by simp [rank]⟩
    cases after <;> exact h
  | insert key value after => exact .inl ⟨_, rfl⟩
  | removeHot key => exact .inr ⟨_, rfl, h, by simp [rank]⟩
  | removeWarm key hotVal => exact .inr ⟨_, rfl, h, by simp [rank]⟩
  | removeCold key hotVal warmVal => exact .inl ⟨_, rfl⟩

end Pc

namespace Shared

variable {Client : Type} [DecidableEq Client] {s s' : Shared Client} {c : Client}

/-- Nothing begins. -/
def Continues (_ : Shared Client) (m : Move Client) : Prop := ∃ c, m = .step c

/-- A client with a call takes its next step unless another has the lock. -/
theorem advance_of_ready (hreq : (s.pc c).request ≠ none)
    (hfree : (s.pc c).locks = true → s.lock = none) : ∃ s' out, s.advance C c = some (s', out) := by
  unfold advance
  dsimp only
  rw [if_neg]
  · exact ⟨_, _, rfl⟩
  · rintro (hnone | ⟨hlocks, hlock⟩)
    · exact hreq hnone
    · exact hlock (hfree hlocks)

/-- A client that finds the lock free, or has it, runs to the end of its call on its own. -/
theorem completes_alone {req : Request} : ∀ (n : Nat) {s : Shared Client}, s.Orderly K →
    (s.pc c).rank ≤ n → s.lock = none ∨ s.lock = some c → (s.pc c).request = some req →
    ∃ more s' answer, Run (step C) Continues s more s' ∧
      Report.returned c req answer ∈ outputs more ∧ s'.Orderly K ∧ s'.lock = none ∧
      ∀ d, d ≠ c → s'.pc d = s.pc d := by
  intro n
  induction n with
  | zero =>
    intro s _ hrank _ hreq
    exact absurd (Pc.rank_pos hreq) (Nat.not_lt.mpr hrank)
  | succ n ih =>
    intro s ho hrank hlock hreq
    have hfree : (s.pc c).locks = true → s.lock = none := by
      intro hlocks
      rcases hlock with hnone | hown
      · exact hnone
      · rw [Pc.locks_of_holds ((ho.lock c).mp hown)] at hlocks
        cases hlocks
    obtain ⟨s₁, out, hstep⟩ := advance_of_ready (C := C) (by rw [hreq]; exact Option.some_ne_none _)
      hfree
    obtain ⟨-, -, -, hlock₁, hpc, hout⟩ := advance_some hstep
    have hfirst : Run (step C) Continues s [⟨s, .step c, s₁, out⟩] s₁ :=
      .turn .init ⟨c, rfl⟩ hstep
    have hothers : ∀ d, d ≠ c → s₁.pc d = s.pc d := by
      intro d hdc
      rw [hpc, Function.update_of_ne hdc]
    rcases Pc.run_progress C s.store hreq with ⟨answer, hret⟩ | ⟨pc', hgoto, hreq', hless⟩
    · refine ⟨_, s₁, answer, hfirst, ?_, ho.step hstep, ?_, hothers⟩
      · rw [outputs_cons, hout]
        exact List.mem_append_left _ (returned_mem_reports.mpr ⟨rfl, hreq, hret⟩)
      · rw [hlock₁, hret, if_neg (by exact Bool.false_ne_true)]
        split
        · rfl
        · rename_i hholds
          exact hlock.resolve_right fun hown => hholds ((ho.lock c).mp hown)
    · have hown : s₁.lock = none ∨ s₁.lock = some c := by
        rw [hlock₁]
        split
        · exact .inr rfl
        · split
          · exact .inl rfl
          · exact hlock
      have hpc' : s₁.pc c = pc' := by
        rw [hpc, Function.update_self, hgoto]
        rfl
      obtain ⟨more, s', answer, hmore, hmem, ho', hlock', hothers'⟩ :=
        ih (ho.step hstep) (by rw [hpc']; omega) hown (by rw [hpc']; exact hreq')
      refine ⟨_, s', answer, hfirst.append hmore, ?_, ho', hlock', ?_⟩
      · rw [outputs_append]
        exact List.mem_append_left _ hmem
      · intro d hdc
        rw [hothers' d hdc, hothers d hdc]

/-- **Every call can be completed** without a new one: whoever has the lock goes first. -/
theorem completes (ho : s.Orderly K) {req : Request} (hreq : (s.pc c).request = some req) :
    ∃ more s' answer, Run (step C) Continues s more s' ∧
      Report.returned c req answer ∈ outputs more := by
  by_cases hlock : s.lock = none ∨ s.lock = some c
  · obtain ⟨more, s', answer, hmore, hmem, -⟩ := completes_alone _ ho (Nat.le_refl _) hlock hreq
    exact ⟨more, s', answer, hmore, hmem⟩
  · rw [not_or] at hlock
    obtain ⟨d, hd⟩ := Option.ne_none_iff_exists'.mp hlock.1
    have hbusy : (s.pc d).request ≠ none := by
      intro hnone
      have hholds := (ho.lock d).mp hd
      rw [eq_idle_of_request hnone] at hholds
      cases hholds
    obtain ⟨req', hreq'⟩ := Option.ne_none_iff_exists'.mp hbusy
    obtain ⟨first, s₁, -, hfirst, -, ho₁, hlock₁, hothers⟩ :=
      completes_alone (C := C) _ ho (Nat.le_refl _) (.inr hd) hreq'
    have hdc : c ≠ d := by
      rintro rfl
      exact hlock.2 hd
    obtain ⟨more, s', answer, hmore, hmem, -⟩ := completes_alone (C := C) _ ho₁ (Nat.le_refl _)
      (.inl hlock₁) (by rw [hothers c hdc]; exact hreq)
    refine ⟨_, s', answer, hfirst.append hmore, ?_⟩
    rw [outputs_append]
    exact List.mem_append_left _ hmem

/-! ## The result -/

/-- **No lost update.** Take any number of clients with any calls on keys the digest tells apart, in
any interleaving of their steps. If at the step with which a `put` of `v` under `k` returns the
other clients agree, and no write of `k` begins later, then every `get` of `k` that returns later
answers `v`, every later eviction of `k` writes `v` to the warm tier, and every `get` of `k` under
way can be completed and answers `v`. -/
theorem no_lost_update (hK : Distinct C K) {config : StorageConfig} {fs : FileSystem}
    {st : TieredStorage} (hnew : TieredStorage.new config fs = some st)
    {later earlier : List (SharedTurn Client)} {t : SharedTurn Client}
    (hrun : Interleaved C K (Shared.new st) (later ++ t :: earlier) s)
    (hput : Report.returned c (.put k v) .done ∈ t.out)
    (hagrees : ∀ d, d ≠ c → (t.before.pc d).Agrees k v (t.before.store.warmFile C k))
    (hno : ∀ t' ∈ later, NoWrite k t'.before t'.event) :
    (∀ d answer, Report.returned d (.get k) answer ∈ outputs later → answer = .value (some v)) ∧
    (∀ d w, Report.evicted d k w ∈ outputs later → w = v) ∧
    ∀ d, (s.pc d).request = some (.get k) → ∃ more s', Run (step C) Continues s more s' ∧
      Report.returned d (.get k) (.value (some v)) ∈ outputs more := by
  have ho₀ : (Shared.new st : Shared Client).Orderly K := orderly_new hnew
  obtain ⟨s₁, hpast, hlater⟩ := hrun.split
  have ho₁ : s₁.Orderly K := ho₀.run hpast
  have hsettled : k ∈ K ∧ s₁.Settled C k v := by
    cases hpast with
    | @turn _ s _ m _ hpast hkeyed hstep =>
      have ho : s.Orderly K := ho₀.run hpast
      cases m with
      | invoke d req =>
        obtain ⟨-, -, rfl⟩ := invoke_some hstep
        cases hput
      | step d =>
        obtain ⟨-, -, -, -, -, hout⟩ := advance_some hstep
        have hput' := hput
        rw [hout] at hput'
        obtain ⟨rfl, hreq, -⟩ := returned_mem_reports.mp hput'
        exact ⟨ho.keys c k (Pc.key_mem_keys hreq), settled_of_put ho hstep hput hagrees⟩
  obtain ⟨hk, hs₁⟩ := hsettled
  obtain ⟨hs, hnames⟩ := hs₁.run hK hk ho₁ hlater hno
  refine ⟨fun d answer hmem => hnames _ hmem rfl, fun d w hmem => hnames _ hmem rfl, ?_⟩
  intro d hreq
  have ho : s.Orderly K := ho₁.run hlater
  obtain ⟨more, s', answer, hmore, hmem⟩ := completes (C := C) ho hreq
  -- the completion is a run like any other
  have hkeyed : Interleaved C K s more s' := hmore.weaken fun s m hm => by
    obtain ⟨e, rfl⟩ := hm
    trivial
  have hquiet : ∀ t ∈ more, NoWrite k t.before t.event := by
    intro t ht
    obtain ⟨-, -, -, ⟨e, he⟩, -⟩ := hmore.of_mem ht
    rw [he]
    trivial
  have hanswer := (hs.run hK hk ho hkeyed hquiet).2 _ hmem rfl
  rw [hanswer] at hmem
  exact ⟨more, s', hmore, hmem⟩

/-! ### Two clients and a cache for one -/

open TieredStorage in
def emptyStore : TieredStorage := (TieredStorage.new oneEntry ∅).get oneEntry_new

open TieredStorage in
/-- The second client has begun a `get` when the first replaces the value; then the key is
evicted. -/
def orderedMoves : List (Move Bool) :=
  [.invoke true (.put keyA ⟨[1]⟩), .step true, .step true,
    .invoke true (.put keyA ⟨[2]⟩), .invoke false (.get keyA), .step true, .step true,
    .step false, .invoke true (.put keyB ⟨[9]⟩), .step true, .step true, .step true]

theorem orderedMoves_replay : (Run.replay (step Crates.sample) (Shared.new emptyStore) []
    orderedMoves).isSome = true := by
  decide +kernel

open TieredStorage in
theorem no_lost_update_ordered : ∃ later t earlier s,
    Interleaved Crates.sample {k | k ∈ [keyA, keyB]} (Shared.new emptyStore : Shared Bool)
      (later ++ t :: earlier) s ∧
    Report.returned true (.put keyA ⟨[2]⟩) .done ∈ t.out ∧
    Report.returned false (.get keyA) (.value (some ⟨[2]⟩)) ∈ outputs later ∧
    (∃ d w, Report.evicted d keyA w ∈ outputs later) ∧
    ∀ d w, Report.evicted d keyA w ∈ outputs later → w = ⟨[2]⟩ := by
  have hrun := (Run.of_replay_get (G := Keyed {k | k ∈ [keyA, keyB]}) orderedMoves_replay
    (by decide +kernel)).at_turn (n := 5) (by decide +kernel)
  have hresult := no_lost_update (c := true) (k := keyA) (v := ⟨[2]⟩) distinct_sample
    (Option.some_get oneEntry_new).symm hrun (by decide +kernel) (by decide +kernel)
    (by decide +kernel)
  exact ⟨_, _, _, _, hrun, by decide +kernel, by decide +kernel, ⟨true, ⟨[2]⟩, by decide +kernel⟩,
    hresult.2.1⟩

open TieredStorage in
/-- The second client has read the old value from the warm tier when the first replaces it. It then
promotes what it has read; the first reads the key, and evicts it. -/
def racingMoves : List (Move Bool) :=
  [.invoke true (.put keyA ⟨[1]⟩), .step true, .step true,
    .invoke true (.put keyB ⟨[9]⟩), .step true, .step true, .step true, .step true,
    .invoke false (.get keyA), .step false, .step false,
    .invoke true (.put keyA ⟨[2]⟩), .step true, .step true, .step true, .step true,
    .step false,
    .invoke true (.get keyA), .step true,
    .invoke true (.put keyB ⟨[9]⟩), .step true, .step true, .step true]

theorem racingMoves_replay : (Run.replay (step Crates.sample) (Shared.new emptyStore) []
    racingMoves).isSome = true := by
  decide +kernel

open TieredStorage in
/-- The `put` has returned and no write of the key begins later, yet a `get` that begins later
answers the value before, and eviction writes it back to the warm tier. -/
theorem no_lost_update_overwritten : ∃ later t earlier s,
    Interleaved Crates.sample {k | k ∈ [keyA, keyB]} (Shared.new emptyStore : Shared Bool)
      (later ++ t :: earlier) s ∧
    Report.returned true (.put keyA ⟨[2]⟩) .done ∈ t.out ∧
    (∀ t' ∈ later, NoWrite keyA t'.before t'.event) ∧
    (∃ t' ∈ later, t'.event = .invoke true (.get keyA)) ∧
    Report.returned true (.get keyA) (.value (some ⟨[1]⟩)) ∈ outputs later ∧
    t.after.store.warmFile Crates.sample keyA = some ⟨[2]⟩ ∧
    Report.evicted true keyA ⟨[1]⟩ ∈ outputs later ∧
    s.store.warmFile Crates.sample keyA = some ⟨[1]⟩ := by
  have hrun := (Run.of_replay_get (G := Keyed {k | k ∈ [keyA, keyB]}) racingMoves_replay
    (by decide +kernel)).at_turn (n := 7) (by decide +kernel)
  exact ⟨_, _, _, _, hrun, by decide +kernel, by decide +kernel, by decide +kernel,
    by decide +kernel, by decide +kernel, by decide +kernel, by decide +kernel⟩

end Shared

end Storage

end Trv1Chain
