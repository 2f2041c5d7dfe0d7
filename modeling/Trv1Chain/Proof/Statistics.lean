import Trv1Chain.Lib.Flow
import Trv1Chain.Proof.LostUpdate

/-!
# The store's statistics

`StorageStats` is eight counters that the clients bump as their calls go along. Each is a branch of
`get`, or the eviction callback: a `get` looks in the cache, then in the warm tier, then in the cold
one, and what it finds in the files it promotes. So the counters are the flow of `get` calls through
these four stages (`Stage`), and they must add up: what leaves one stage without an answer enters
the next.

They do, in every interleaving and at every moment (`statistics_account`), if the calls now at a
stage are taken into account, and as counts of which the machine words show the remainder.
-/

set_option autoImplicit false

namespace Trv1Chain

open Lib

namespace Storage

variable {C : Crates} {K : Set StorageKey}

/-! ## Counters and stages -/

inductive Counter where
  | hotHits
  | hotMisses
  | warmHits
  | warmMisses
  | coldHits
  | coldMisses
  | promotions
  | evictions
  deriving DecidableEq

namespace StorageStats

/-- The counters after these counts: words of 64 bits, which wrap. -/
def showing (n : Counter → ℕ) : StorageStats where
  hotHits := UInt64.ofNat (n .hotHits)
  hotMisses := UInt64.ofNat (n .hotMisses)
  warmHits := UInt64.ofNat (n .warmHits)
  warmMisses := UInt64.ofNat (n .warmMisses)
  coldHits := UInt64.ofNat (n .coldHits)
  coldMisses := UInt64.ofNat (n .coldMisses)
  promotions := UInt64.ofNat (n .promotions)
  evictions := UInt64.ofNat (n .evictions)

/-- Bump a counter. -/
def count (stats : StorageStats) : Option Counter → StorageStats
  | none => stats
  | some .hotHits => { stats with hotHits := stats.hotHits + 1 }
  | some .hotMisses => { stats with hotMisses := stats.hotMisses + 1 }
  | some .warmHits => { stats with warmHits := stats.warmHits + 1 }
  | some .warmMisses => { stats with warmMisses := stats.warmMisses + 1 }
  | some .coldHits => { stats with coldHits := stats.coldHits + 1 }
  | some .coldMisses => { stats with coldMisses := stats.coldMisses + 1 }
  | some .promotions => { stats with promotions := stats.promotions + 1 }
  | some .evictions => { stats with evictions := stats.evictions + 1 }

end StorageStats

/-- One for the counter that was bumped. -/
def once (bumped : Option Counter) (c : Counter) : ℕ := if bumped = some c then 1 else 0

theorem count_showing (n : Counter → ℕ) (bumped : Option Counter) :
    (StorageStats.showing n).count bumped = .showing fun c => once bumped c + n c := by
  rcases bumped with _ | c
  · simp [StorageStats.count, once]
  · cases c <;>
      simp [StorageStats.count, StorageStats.showing, once, UInt64.ofNat_add, UInt64.add_comm]

/-- Where a `get` is. -/
inductive Stage where
  | hot
  | warm
  | cold
  | promotion
  deriving DecidableEq

/-- What has entered a stage, given how many calls of `get` were begun. -/
def inflow (begun : ℕ) (n : Counter → ℕ) : Stage → ℕ
  | .hot => begun
  | .warm => n .hotMisses
  | .cold => n .warmMisses
  | .promotion => n .warmHits + n .coldHits

/-- What has left a stage. -/
def outflow (n : Counter → ℕ) : Stage → ℕ
  | .hot => n .hotHits + n .hotMisses
  | .warm => n .warmHits + n .warmMisses
  | .cold => n .coldHits + n .coldMisses
  | .promotion => n .promotions

/-! ## One step -/

namespace Pc

def stage : Pc → Option Stage
  | .getHot _ => some .hot
  | .getWarm _ => some .warm
  | .getCold _ => some .cold
  | .hotPut _ _ .promote | .flush _ _ _ _ .promote | .insert _ _ .promote => some .promotion
  | _ => none

/-- The counter the next step bumps. -/
def counts (C : Crates) (st : TieredStorage) : Pc → Option Counter
  | .getHot key => some (if (st.hot.get key).2.isSome then .hotHits else .hotMisses)
  | .getWarm key => some (if (st.warm.get C st.fs key).isSome then .warmHits else .warmMisses)
  | .getCold key => some (if (st.cold.retrieve C st.fs key).isSome then .coldHits else .coldMisses)
  | .hotPut key _ .promote => if (st.hot.evict key).2.isSome then none else some .promotions
  | .insert _ _ .promote => some .promotions
  | .flush _ _ _ _ _ => some .evictions
  | _ => none

end Pc

namespace Report

variable {Client : Type}

/-- A `get` that answers a value. -/
def found : Report Client → Bool
  | .returned _ (.get _) (.value (some _)) => true
  | _ => false

/-- A `get` that answers there is none. -/
def missing : Report Client → Bool
  | .returned _ (.get _) (.value none) => true
  | _ => false

def eviction : Report Client → Bool
  | .evicted _ _ _ => true
  | .returned _ _ _ => false

end Report

namespace Shared

variable {Client : Type} {s s' : Shared Client} {out : List (Report Client)}

/-- A client goes from `pc` to `pc'` and the store from `st` to `st'`, a counter is bumped, `out` is
reported and so many calls of `get` are begun: the counter is the one that stands for the way the
`get` goes and for what is reported. -/
structure Counted (begun : ℕ) (bumped : Option Counter) (pc pc' : Pc) (st st' : TieredStorage)
    (out : List (Report Client)) : Prop where
  stats : st'.stats = st.stats.count bumped
  flow : ∀ g, inflow begun (once bumped) g + (if pc.stage = some g then 1 else 0) =
    outflow (once bumped) g + if pc'.stage = some g then 1 else 0
  found : out.countP Report.found = once bumped .hotHits + once bumped .promotions
  missing : out.countP Report.missing = once bumped .coldMisses
  evicted : out.countP Report.eviction = once bumped .evictions

theorem run_counted (C : Crates) (c : Client) (pc : Pc) (st : TieredStorage) :
    Counted 0 (pc.counts C st) pc (pc.run C st).2.pc st (pc.run C st).1
      (reports c pc (pc.run C st).2) := by
  cases pc with
  | getHot key =>
    rw [Pc.run, Pc.counts]
    rcases st.hot.get key with ⟨hot, _ | value⟩ <;>
      exact ⟨rfl, fun g => by cases g <;> rfl, rfl, rfl, rfl⟩
  | getWarm key =>
    rw [Pc.run, Pc.counts]
    cases st.warm.get C st.fs key <;> exact ⟨rfl, fun g => by cases g <;> rfl, rfl, rfl, rfl⟩
  | getCold key =>
    rw [Pc.run, Pc.counts]
    cases st.cold.retrieve C st.fs key <;>
      exact ⟨rfl, fun g => by cases g <;> rfl, rfl, rfl, rfl⟩
  | hotPut key value after =>
    rw [Pc.run]
    cases after with
    | put =>
      rcases st.hot.evict key with ⟨hot, _ | e⟩ <;>
        exact ⟨rfl, fun g => by cases g <;> rfl, rfl, rfl, rfl⟩
    | promote =>
      -- a promotion that evicts is counted when it ends
      rw [Pc.counts]
      rcases st.hot.evict key with ⟨hot, _ | e⟩ <;>
        exact ⟨rfl, fun g => by cases g <;> rfl, rfl, rfl, rfl⟩
  | flush evictedKey evictedValue key value after | insert key value after =>
    cases after <;> exact ⟨rfl, fun g => by cases g <;> rfl, rfl, rfl, rfl⟩
  | _ => exact ⟨rfl, fun g => by cases g <;> rfl, rfl, rfl, rfl⟩

/-! ## A run -/

/-- The counter a turn bumps. -/
def bumped (C : Crates) (t : SharedTurn Client) : Option Counter :=
  match t.event with
  | .invoke _ _ => none
  | .step c => (t.before.pc c).counts C t.before.store

def tally (C : Crates) (hist : List (SharedTurn Client)) (c : Counter) : ℕ :=
  total (fun t => once (bumped C t) c) hist

/-- The turn begins a `get`. -/
def begins (t : SharedTurn Client) : ℕ :=
  match t.event with
  | .invoke _ (.get _) => 1
  | _ => 0

theorem inflow_tally (C : Crates) (hist : List (SharedTurn Client)) (g : Stage) :
    inflow (total begins hist) (tally C hist) g =
      total (fun t => inflow (begins t) (once (bumped C t)) g) hist := by
  cases g with
  | promotion => exact (total_add _ _ hist).symm
  | _ => rfl

theorem outflow_tally (C : Crates) (hist : List (SharedTurn Client)) (g : Stage) :
    outflow (tally C hist) g = total (fun t => outflow (once (bumped C t)) g) hist := by
  cases g with
  | promotion => rfl
  | _ => exact (total_add _ _ hist).symm

/-- The clients at a stage. -/
def atStage [Fintype Client] (s : Shared Client) (g : Stage) : ℕ :=
  census (fun pc => Pc.stage pc = some g) s.pc

variable [DecidableEq Client]

/-- **A turn moves one client and is counted.** -/
theorem step_counted {m : Move Client} (h : s.step C m = some (s', out)) :
    ∃ c pc, s'.pc = Function.update s.pc c pc ∧
      Counted (begins ⟨s, m, s', out⟩) (bumped C ⟨s, m, s', out⟩) (s.pc c) pc s.store s'.store
        out := by
  cases m with
  | invoke c req =>
    obtain ⟨hidle, rfl, rfl⟩ := invoke_some h
    refine ⟨c, .start req, rfl, ?_⟩
    rw [hidle]
    cases req <;> exact ⟨rfl, fun g => by cases g <;> rfl, rfl, rfl, rfl⟩
  | step c =>
    obtain ⟨-, -, hstore, -, hpc, rfl⟩ := advance_some h
    refine ⟨c, _, hpc, ?_⟩
    rw [hstore]
    exact run_counted C c (s.pc c) s.store

variable {s₀ : Shared Client} {hist : List (SharedTurn Client)}

theorem stats_of_run (hzero : s₀.store.stats = .default) (hrun : Interleaved C K s₀ hist s) :
    s.store.stats = .showing (tally C hist) := by
  refine hrun.invariant (I := fun hist s => s.store.stats = .showing (tally C hist)) hzero ?_
  intro hist s m s' out _ ih _ hstep
  obtain ⟨_, _, -, hturn⟩ := step_counted hstep
  rw [hturn.stats, ih, count_showing]
  rfl

theorem flow_of_run [Fintype Client] (hidle : ∀ c, s₀.pc c = .idle)
    (hrun : Interleaved C K s₀ hist s) (g : Stage) :
    inflow (total begins hist) (tally C hist) g = outflow (tally C hist) g + s.atStage g := by
  have hnone : s₀.atStage g = 0 :=
    Finset.sum_eq_zero fun c _ => by rw [hidle c]; rfl
  rw [inflow_tally, outflow_tally, ← Nat.zero_add (total _ hist), ← hnone]
  refine Run.flow (fun pc => Pc.stage pc = some g) Shared.pc ?_ hrun
  intro s m s' out hstep
  obtain ⟨c, pc, hpc, hturn⟩ := step_counted hstep
  exact ⟨c, pc, hpc, hturn.flow g⟩

/-- **The statistics add up.** In every interleaving of any calls of any number of clients there
are, at every moment, counts that the counters show and that account for the calls: at each of the
four stages of a `get` as many calls came in as went out and are there; every value found was a hit
in the cache or a promotion, every value missing a miss in the cold tier, and every eviction was
counted. -/
theorem statistics_account [Fintype Client] {config : StorageConfig} {fs : FileSystem}
    {st : TieredStorage} (hnew : TieredStorage.new config fs = some st)
    (hrun : Interleaved C K (Shared.new st : Shared Client) hist s) :
    ∃ n : Counter → ℕ, s.store.stats = .showing n ∧
      (∀ g, inflow (total begins hist) n g = outflow n g + s.atStage g) ∧
      (outputs hist).countP Report.found = n .hotHits + n .promotions ∧
      (outputs hist).countP Report.missing = n .coldMisses ∧
      (outputs hist).countP Report.eviction = n .evictions := by
  have hzero : st.stats = .default := by
    obtain ⟨hot, -, rfl⟩ := Option.map_eq_some_iff.mp hnew
    rfl
  refine ⟨tally C hist, stats_of_run hzero hrun, flow_of_run (fun _ => rfl) hrun, ?_, ?_, ?_⟩
  · refine (Run.countP_outputs hrun fun hstep => ?_).trans (total_add _ _ hist)
    obtain ⟨_, _, -, hturn⟩ := step_counted hstep
    exact hturn.found
  · refine Run.countP_outputs hrun fun hstep => ?_
    obtain ⟨_, _, -, hturn⟩ := step_counted hstep
    exact hturn.missing
  · refine Run.countP_outputs hrun fun hstep => ?_
    obtain ⟨_, _, -, hturn⟩ := step_counted hstep
    exact hturn.evicted

open TieredStorage in
/-- Two keys and a cache for one. Both clients look for the key that was evicted and find it in the
warm tier; one of them has promoted it. -/
def promotingMoves : List (Move Bool) :=
  [.invoke true (.put keyA ⟨[1]⟩), .step true, .step true,
    .invoke true (.put keyB ⟨[9]⟩), .step true, .step true, .step true, .step true,
    .invoke false (.get keyA), .step false, .invoke true (.get keyA), .step true, .step true,
    .step false, .step false, .step false, .step false]

open TieredStorage in
theorem statistics_account_promoting : ∃ hist s,
    Interleaved Crates.sample {k | k ∈ [keyA, keyB]} (Shared.new emptyStore : Shared Bool) hist s ∧
    s.atStage .promotion = 1 ∧ total begins hist = 2 ∧
    ∃ n : Counter → ℕ, s.store.stats = .showing n ∧
      (∀ g, inflow (total begins hist) n g = outflow n g + s.atStage g) ∧
      (outputs hist).countP Report.found = n .hotHits + n .promotions ∧
      (outputs hist).countP Report.missing = n .coldMisses ∧
      (outputs hist).countP Report.eviction = n .evictions := by
  have hreplay : ∃ hist s, Interleaved Crates.sample {k | k ∈ [keyA, keyB]}
      (Shared.new emptyStore : Shared Bool) hist s ∧
      s.atStage .promotion = 1 ∧ total begins hist = 2 :=
    Run.exists_of_replay promotingMoves (by decide +kernel)
  obtain ⟨hist, s, hrun, hstage, hbegun⟩ := hreplay
  exact ⟨hist, s, hrun, hstage, hbegun,
    statistics_account (Option.some_get oneEntry_new).symm hrun⟩

end Shared

end Storage

end Trv1Chain
