import Trv1Chain.Lib.Atomic
import Trv1Chain.Proof.EpochClock
import Trv1Chain.Proof.SavedState
import Trv1Chain.Rpc.Tasks

/-!
# Requests beside the event loop

The validator under any schedule of its threads: the event loop on one of them, requests on the
others, every instruction of `Rpc.Tasks` a step.

The locks are always taken in one order, so nothing blocks for good and every task ends
(`validator_finishes`). A request that reads under one guard is answered as at one moment
(`request_linearizes`). `get_block` is one of those although it reads two cells, because it keeps
the block store locked; what it can answer is `getBlock_answers`. `get_latest_block` lets go of the
store before it reads the height, and `getLatestBlock_answers` says what that costs.

What is said about the chain a request sees is under the condition that the loop's commits come in
the order of their heights (`Spawns.commit`). The loop keeps to it unless a peer announces a commit.
-/

set_option autoImplicit false

namespace Trv1Chain.Rpc

open Lib Staking ValidatorSet Genesis RpcState

/-! ## The order of the locks -/

/-- The order in which the locks are taken wherever two are held at once. -/
def lockRank : Lock → Nat
  | .stakingPool => 0
  | .validatorSet => 1
  | .mempool => 2
  | .stateDb => 3
  | .feeMarket => 4
  | .baseFee => 5
  | .blockStore => 6
  | .currentHeight => 7
  | .validatorCount => 8

theorem lockRank_lt (l : Lock) : lockRank l < 9 := by cases l <;> decide

/-- The list of stored blocks. -/
def store (s : Shared) : List BlockResponse := s.rpc.blockStore

/-- The two cells `get_block` reads. -/
def chain (s : Shared) : UInt64 × List BlockResponse := (s.rpc.currentHeight, s.rpc.blockStore)

/-- What is asked of a task: ordered locks, a bounded length, and the block store written only under
its lock. -/
structure Sound (held : List (Lock × Mode)) (n : Nat) (t : ValidatorTask) : Prop where
  ordered : t.Ordered lockRank held
  within : t.Within n
  respects : t.Respects .blockStore store held

theorem Sound.done (r : Outcome) (n : Nat) : Sound [] n (.done r) := ⟨rfl, trivial, trivial⟩

theorem Sound.release {l : Lock} {held : List (Lock × Mode)} {n : Nat} {t : ValidatorTask}
    (h : Sound (Task.without l held) n t) : Sound held (n + 1) (.release l t) :=
  ⟨h.ordered, ⟨Nat.succ_pos n, h.within⟩, h.respects⟩

theorem Sound.acquire {l : Lock} {m : Mode} {held : List (Lock × Mode)} {n : Nat}
    {t : ValidatorTask} (hrank : ∀ h ∈ held, lockRank h.1 < lockRank l)
    (h : Sound ((l, m) :: held) n t) : Sound held (n + 1) (.acquire l m t) :=
  ⟨⟨hrank, h.ordered⟩, ⟨Nat.succ_pos n, h.within⟩, h.respects⟩

theorem Sound.act {f : Shared → Shared} {held : List (Lock × Mode)} {n : Nat}
    {rest : Shared → ValidatorTask}
    (hf : (Lock.blockStore, Mode.write) ∈ held ∨ ∀ s, store (f s) = store s)
    (h : ∀ s, Sound held n (rest s)) : Sound held (n + 1) (.act f rest) :=
  ⟨fun s => (h s).ordered, ⟨Nat.succ_pos n, fun s => (h s).within⟩, hf, fun s => (h s).respects⟩

/-- A lock above all that are held is not among them. -/
theorem without_cons {l : Lock} {m : Mode} {held : List (Lock × Mode)}
    (hrank : ∀ h ∈ held, lockRank h.1 < lockRank l) : Task.without l ((l, m) :: held) = held := by
  unfold Task.without
  rw [List.filter_cons_of_neg (by simp), List.filter_eq_self]
  intro h hh
  refine decide_eq_true fun he => ?_
  have hlt := hrank h hh
  rw [he] at hlt
  exact Nat.lt_irrefl _ hlt

theorem Sound.under {l : Lock} {m : Mode} {f : Shared → Shared} {n : Nat}
    {held : List (Lock × Mode)} {rest : Shared → ValidatorTask}
    (hrank : ∀ h ∈ held, lockRank h.1 < lockRank l)
    (hf : (l, m) = (Lock.blockStore, Mode.write) ∨ ∀ s, store (f s) = store s)
    (h : ∀ s, Sound held n (rest s)) : Sound held (n + 3) (.under l m f rest) := by
  refine .acquire hrank (.act (hf.imp_left fun he => ?_) fun s => .release ?_)
  · rw [he]
    exact List.mem_cons_self
  · rw [without_cons hrank]
    exact h s

theorem Sound.peek {l : Lock} {n : Nat} {rest : Shared → ValidatorTask}
    (h : ∀ s, Sound [] n (rest s)) : Sound [] (n + 3) (.peek l rest) :=
  .under (by simp) (Or.inr fun _ => rfl) h

theorem Sound.mono {n k : Nat} {t : ValidatorTask} {held : List (Lock × Mode)}
    (h : Sound held n t) (hle : n ≤ k) : Sound held k t :=
  ⟨h.ordered, h.within.mono hle, h.respects⟩

theorem getBlockTask_sound (height : UInt64) : Sound [] 6 (getBlockTask height) := by
  refine .acquire (by simp) (.act (Or.inr fun _ => rfl) fun s => ?_)
  unfold lookUp
  split
  · exact .release (.done _ _)
  · exact .under (by decide) (Or.inr fun _ => rfl) fun s' => .release (.done _ _)

theorem getLatestBlockTask_sound : Sound [] 6 getLatestBlockTask := by
  refine .peek fun s => ?_
  split
  · exact .done _ _
  · exact .peek fun s' => .done _ _

/-- A submission leaves the chain alone. -/
theorem chain_letIn (C : Crates) (F : FileCrates) (s : Shared) (tx : Transaction) :
    chain { s with rpc := (letIn C F s.rpc tx).1 } = chain s := by
  unfold letIn trySend
  split
  · dsimp only
    split
    · rfl
    · split <;> rfl
  · rfl

theorem submitTransactionTask_sound (C : Crates) (F : FileCrates) (req : SubmitTransactionRequest) :
    Sound [] 3 (submitTransactionTask C F req) := by
  unfold submitTransactionTask
  split
  · exact .done _ _
  · exact .under (by simp) (Or.inr fun s => congrArg Prod.snd (chain_letIn C F s _))
      fun s => .done _ _

theorem getAccountTask_sound (F : FileCrates) (pubkey : Text) :
    Sound [] 3 (getAccountTask F pubkey) := by
  unfold getAccountTask
  split
  · exact .done _ _
  · exact .peek fun s => .done _ _

theorem serveTask_sound (C : Crates) (F : FileCrates) (r : Request) :
    Sound [] 6 (serveTask C F r) := by
  cases r with
  | getBlock height => exact getBlockTask_sound height
  | getLatestBlock => exact getLatestBlockTask_sound
  | getValidators => exact .act (Or.inr fun _ => rfl) fun s => .done _ _
  | getStakingInfo pubkey => exact .done _ _
  | getFeeInfo => exact .peek fun s => .done _ _
  | health => exact .peek fun s => .peek fun s' => .done _ _
  | submitTransaction req => exact (submitTransactionTask_sound C F req).mono (by decide)
  | getAccount pubkey => exact (getAccountTask_sound F pubkey).mono (by decide)

theorem epochTask_sound (o : RotationOrder) (genesis : GenesisConfig) (height : Height)
    (txs : List Transaction) : Sound [] 5 (epochTask o genesis height txs) := by
  unfold epochTask
  split
  · refine .acquire (by simp)
      (.under (by decide) (Or.inr fun s => ?_) fun s => .release (.done _ _))
    split <;> rfl
  · exact .done _ _

theorem publishTask_sound (env : Env) (o : RotationOrder) (genesis : GenesisConfig)
    (height : Height) (blockHash : BlockHash) (txs : List Transaction) (proposer : List UInt8) :
    Sound [] 18 (publishTask env o genesis height blockHash txs proposer) := by
  refine .under (by simp) (Or.inr fun _ => rfl) fun s => ?_
  refine .acquire (by simp) (.act (Or.inr fun _ => rfl) fun s => ?_)
  refine .under (by decide) (Or.inr fun _ => rfl) fun s' => .release ?_
  -- the block itself is stored under its own lock
  refine .under (by simp [Task.without]) (Or.inl rfl) fun s => ?_
  exact .act (Or.inr fun _ => rfl) fun s => epochTask_sound o genesis height txs

theorem executeTask_sound (C : Crates) (env : Env) (o : RotationOrder) (genesis : GenesisConfig)
    (height : Height) (blockHash : BlockHash) (txs : List Transaction) (proposer : List UInt8) :
    Sound [] 27 (executeTask C env o genesis height blockHash txs proposer) := by
  refine .under (by simp) (Or.inr fun _ => rfl) fun s => ?_
  refine .under (by simp) (Or.inr fun _ => rfl) fun s => ?_
  refine .under (by simp) (Or.inr fun s => ?_) fun s => ?_
  · split <;> rfl
  · split
    · exact publishTask_sound env o genesis height blockHash txs proposer
    · exact .done _ _

theorem commitTask_sound (C : Crates) (genesis : GenesisConfig) (c : ValidatorNode.CommitCall) :
    Sound [] 30 (commitTask C genesis c) := by
  unfold commitTask
  split
  · exact (executeTask_sound ..).mono (by decide)
  · exact .peek fun s => executeTask_sound ..

theorem SideTask.sound {C : Crates} {t : ValidatorTask} (h : SideTask C t) : Sound [] 6 t := by
  cases h with
  | propose env signingKey height => exact .peek fun s => .peek fun s' => .done _ _
  | gossiped tx => exact .under (by simp) (Or.inr fun _ => rfl) fun s => .done _ _
  | save => exact .peek fun s => .done _ _

/-- **Every task of the validator** takes the locks in their order, is at most thirty instructions
long, and writes the block store under its lock. -/
theorem IsTask.sound {C : Crates} {F : FileCrates} {genesis : GenesisConfig} {t : ValidatorTask}
    (h : IsTask C F genesis t) : Sound [] 30 t := by
  cases h with
  | request r => exact (serveTask_sound C F r).mono (by decide)
  | commit c => exact commitTask_sound C genesis c
  | side h => exact h.sound.mono (by decide)

/-! ## Nothing blocks -/

variable {ι : Type} [DecidableEq ι] {C : Crates} {F : FileCrates} {genesis : GenesisConfig}

/-- **No deadlock, and no task without an end.** Whatever tasks the validator's threads were given
and in whatever order they ran, as long as one is not finished some thread can take a step, also
where a waiting writer keeps new readers out; and without new tasks at most thirty steps for each
thread are left. -/
theorem validator_finishes [Fintype ι] {sys₀ sys sys' : Threads ι Lock Shared Outcome}
    {visited : List Shared} {n : Nat} (hidle : sys₀.Idle)
    (hr : Threads.Reach (fun _ _ t => IsTask C F genesis t) sys₀ visited sys)
    (hs : Threads.Steps sys n sys') :
    n ≤ 30 * Fintype.card ι ∧
      ((∃ i, ¬ (sys'.thread i).task.Finished) →
        ∃ j, sys'.CanMove j ∧ ∃ sys'', Threads.Step sys' j sys'') := by
  have hd : sys.Disciplined lockRank :=
    hr.disciplined (hidle.disciplined lockRank) fun h => h.sound.ordered
  have hw : ∀ i, (sys.thread i).task.Within 30 :=
    hr.within (hidle.within 30) fun h => h.sound.within
  refine ⟨(hd.finishes lockRank_lt hw hs).1, ?_⟩
  rintro ⟨i, hbusy⟩
  obtain ⟨j, hj⟩ := (hd.steps hs).progress lockRank_lt hbusy
  exact ⟨j, hj, hj.exists_step⟩

/-! A validator and a client: the loop on thread `false`, requests on thread `true`. -/

inductive Errand where
  | request (r : Request)
  | commit (c : ValidatorNode.CommitCall)

namespace Errand

def task : Errand → ValidatorTask
  | .request r => serveTask Crates.sample FileCrates.sample r
  | .commit c => commitTask Crates.sample (ValidatorNode.pairGenesis 3) c

/-- Commits come in the order of their heights. -/
def Admitted (s : Shared) (i : Bool) : Errand → Prop
  | .request _ => i = true
  | .commit c => i = false ∧ c.height.val.toNat = s.rpc.blockStore.length

instance (s : Shared) (i : Bool) (e : Errand) : Decidable (e.Admitted s i) :=
  match e with
  | .request _ => inferInstanceAs (Decidable (i = true))
  | .commit _ => inferInstanceAs (Decidable (_ ∧ _))

theorem isTask (e : Errand) :
    IsTask Crates.sample FileCrates.sample (ValidatorNode.pairGenesis 3) e.task := by
  cases e with
  | request r => exact .request r
  | commit c => exact .commit c

end Errand

/-- Before the first commit. -/
def pairThreads : Threads Bool Lock Shared Outcome where
  shared := .ofNode (ValidatorNode.pairNode 3) 2 [] (some [])
  thread _ := ⟨[], .done .panicked⟩

theorem pairThreads_idle : pairThreads.Idle := fun _ => ⟨rfl, _, rfl⟩

/-- The commit of an empty block, begun and taken so many steps. -/
def pairCommit (height : UInt64) (n : Nat) : List (Threads.Move Bool Errand) :=
  .spawn false (.commit ⟨Node.storedOrder, .stored, ⟨height⟩, BlockHash.default, none⟩) ::
    List.replicate n (.step false)

/-- Height 0 is committed, and the commit of height 1 has written the height only. -/
def pairReplay : Option (List Shared × Threads Bool Lock Shared Outcome) :=
  Threads.play Errand.task (fun s i e => e.Admitted s i) pairThreads [pairThreads.shared]
    (pairCommit 0 25 ++ pairCommit 1 15)

theorem pairReplay_isSome : pairReplay.isSome = true := by decide +kernel

def pairWindow : Threads Bool Lock Shared Outcome := (pairReplay.get pairReplay_isSome).2

theorem pairReplay_eq : Threads.play Errand.task (fun s i e => e.Admitted s i) pairThreads
    [pairThreads.shared] (pairCommit 0 25 ++ pairCommit 1 15) =
      some ((pairReplay.get pairReplay_isSome).1, pairWindow) :=
  (Option.some_get pairReplay_isSome).symm

/-- The commit of height 1 has just taken the block store, and the client asks for that block. -/
def pairContention : List (Threads.Move Bool Errand) :=
  pairCommit 0 25 ++ pairCommit 1 22 ++ [.spawn true (.request (.getBlock 1))]

/-- The client waits for the lock under which the loop has stored the block. The loop can go on. -/
theorem validator_finishes_contended : ∃ visited sys₁ sys₂,
    Threads.Reach (fun _ _ t => IsTask Crates.sample FileCrates.sample
      (ValidatorNode.pairGenesis 3) t) pairThreads visited sys₁ ∧
    Threads.Steps sys₁ 1 sys₂ ∧ sys₂.Holds false .blockStore .write ∧
    sys₂.Wants true .blockStore .read ∧ ¬ sys₂.CanMove true ∧
    ∃ j, sys₂.CanMove j ∧ ∃ sys₃, Threads.Step sys₂ j sys₃ := by
  obtain ⟨p, hplay, sys₂, hnext, hholds, hwants⟩ : ∃ p ∈ Threads.play Errand.task
      (fun s i e => e.Admitted s i) pairThreads [pairThreads.shared] pairContention,
      ∃ sys₂ ∈ p.2.next false, (.blockStore, .write) ∈ (sys₂.thread false).held ∧
        sys₂.Wants true .blockStore .read := by
    decide +kernel
  have hr := Threads.Reach.of_play _ _ (fun _ _ e _ => Errand.isTask e) .init hplay
  have hstep : Threads.Steps p.2 1 sys₂ := .succ false .zero (Threads.step_of_next hnext)
  have hstuck : ¬ sys₂.CanMove true := by
    intro hmove
    obtain ⟨-, hread⟩ := (hmove.2 _ _ hwants).1 false .write hholds
    cases hread
  have hbusy : ¬ (sys₂.thread true).task.Finished := by
    rintro ⟨r, hdone⟩
    obtain ⟨rest, htask⟩ := hwants
    rw [hdone] at htask
    cases htask
  exact ⟨p.1, p.2, sys₂, hr, hstep, hholds, hwants, hstuck,
    (validator_finishes pairThreads_idle hr hstep).2 ⟨true, hbusy⟩⟩

/-! ## One moment -/

/-- The request served on one moment's state. -/
def served (C : Crates) (F : FileCrates) (r : Request) (s : Shared) : Shared × Outcome :=
  ({ s with rpc := (s.rpc.serve C F r).1 }, .reply (s.rpc.serve C F r).2)

theorem getBlockTask_atomic (height : UInt64) :
    (getBlockTask height).Atomic (served C F (.getBlock height)) .blockStore store none [] := by
  intro s _
  show (id s = s ∧ Task.Closing (.reply (.block (s.rpc.getBlock height))) (lookUp height s)) ∨ _
  unfold lookUp RpcState.getBlock
  cases hb : s.rpc.blockStore[height.toNat]? with
  | some block => exact Or.inl ⟨rfl, rfl⟩
  | none =>
    -- the store is still locked when the height is read
    refine Or.inr ⟨rfl, ⟨.read, List.mem_cons_self⟩, fun s' hs' => Or.inl ⟨rfl, ?_⟩⟩
    have hsame : s'.rpc.blockStore = s.rpc.blockStore := hs' _ rfl
    show _ = Outcome.reply (.block (s'.rpc.getBlock height))
    unfold RpcState.getBlock
    rw [hsame, hb]

/-- What a request comes to: an atomic task, or an answer that no state has a part in. -/
def Momentary (spec : Shared → Shared × Outcome) (t : ValidatorTask) : Prop :=
  t.Atomic spec .blockStore store none [] ∨ ∃ r, t = .done r ∧ ∀ s, spec s = (s, r)

theorem submitTransactionTask_momentary (req : SubmitTransactionRequest) :
    Momentary (served C F (.submitTransaction req)) (submitTransactionTask C F req) := by
  have hserved : served C F (.submitTransaction req) = fun s =>
      ({ s with rpc := (s.rpc.submitTransaction C F req).1 },
        .reply (.submitted (s.rpc.submitTransaction C F req).2)) := rfl
  rw [hserved]
  unfold submitTransactionTask RpcState.submitTransaction
  cases decodeTransaction F req with
  | error e => exact Or.inr ⟨_, rfl, fun s => rfl⟩
  | ok tx => exact Or.inl fun s _ => Or.inl ⟨rfl, rfl⟩

theorem getAccountTask_momentary (pubkey : Text) :
    Momentary (served C F (.getAccount pubkey)) (getAccountTask F pubkey) := by
  have hserved : served C F (.getAccount pubkey) = fun s =>
      (s, .reply (.account (s.rpc.getAccount F pubkey))) := rfl
  rw [hserved]
  unfold getAccountTask
  cases hkey : decodeKey F "pubkey" pubkey with
  | error e =>
    refine Or.inr ⟨_, rfl, fun s => ?_⟩
    unfold RpcState.getAccount
    rw [hkey]
  | ok key => exact Or.inl fun s _ => Or.inl ⟨rfl, rfl⟩

theorem serveTask_momentary (r : Request) (hlatest : r ≠ .getLatestBlock) (hhealth : r ≠ .health) :
    Momentary (served C F r) (serveTask C F r) := by
  cases r with
  | getBlock height => exact Or.inl (getBlockTask_atomic height)
  | getLatestBlock => exact absurd rfl hlatest
  | health => exact absurd rfl hhealth
  | getValidators => exact Or.inl fun s _ => Or.inl ⟨rfl, rfl⟩
  | getStakingInfo pubkey => exact Or.inr ⟨_, rfl, fun s => rfl⟩
  | getFeeInfo => exact Or.inl fun s _ => Or.inl ⟨rfl, rfl⟩
  | submitTransaction req => exact submitTransactionTask_momentary req
  | getAccount pubkey => exact getAccountTask_momentary pubkey

/-! ## The chain while it grows

A commit writes the height first and stores the block later, under another lock. In between the
height is one ahead of the store. -/

/-- The task will store one block of height `h`, and is past writing the height. -/
def Stores (h : UInt64) : ValidatorTask → Prop
  | .done _ => False
  | .acquire _ _ rest => Stores h rest
  | .release _ rest => Stores h rest
  | .act f rest =>
    (∀ s, chain (f s) = chain s) ∧ (∀ s, Stores h (rest s)) ∨
    (∀ s, ∃ b : BlockResponse, b.height = h ∧
      chain (f s) = (s.rpc.currentHeight, s.rpc.blockStore ++ [b])) ∧
      ∀ s, (rest s).Silent chain

/-- The task will write the height `h` and then store its block, or ends in a panic before. -/
def Publishes (h : UInt64) : ValidatorTask → Prop
  | .done _ => True
  | .acquire _ _ rest => Publishes h rest
  | .release _ rest => Publishes h rest
  | .act f rest =>
    (∀ s, chain (f s) = chain s) ∧ (∀ s, Publishes h (rest s)) ∨
    (∀ s, chain (f s) = (h, s.rpc.blockStore)) ∧ ∀ s, Stores h (rest s)

theorem epochTask_silent (o : RotationOrder) (genesis : GenesisConfig) (height : Height)
    (txs : List Transaction) : (epochTask o genesis height txs).Silent chain := by
  unfold epochTask
  split
  · refine ⟨fun s => ?_, fun s => trivial⟩
    dsimp only
    split <;> rfl
  · trivial

theorem publishTask_publishes (env : Env) (o : RotationOrder) (genesis : GenesisConfig)
    (height : Height) (blockHash : BlockHash) (txs : List Transaction) (proposer : List UInt8) :
    Publishes height.val (publishTask env o genesis height blockHash txs proposer) := by
  refine Or.inr ⟨fun s => rfl, fun s => ?_⟩
  refine Or.inl ⟨fun s => rfl, fun s => ?_⟩
  refine Or.inl ⟨fun s => rfl, fun s => ?_⟩
  refine Or.inr ⟨fun s => ⟨_, rfl, rfl⟩, fun s => ?_⟩
  exact ⟨fun s => rfl, fun s => epochTask_silent o genesis height txs⟩

theorem executeTask_publishes (C : Crates) (env : Env) (o : RotationOrder)
    (genesis : GenesisConfig) (height : Height) (blockHash : BlockHash) (txs : List Transaction)
    (proposer : List UInt8) :
    Publishes height.val (executeTask C env o genesis height blockHash txs proposer) := by
  refine Or.inl ⟨fun s => rfl, fun s => ?_⟩
  refine Or.inl ⟨fun s => rfl, fun s => ?_⟩
  refine Or.inl ⟨fun s => ?_, fun s => ?_⟩
  · dsimp only
    split <;> rfl
  · dsimp only [Publishes]
    split
    · exact publishTask_publishes ..
    · trivial

theorem commitTask_publishes (C : Crates) (genesis : GenesisConfig)
    (c : ValidatorNode.CommitCall) : Publishes c.height.val (commitTask C genesis c) := by
  unfold commitTask
  split
  · exact executeTask_publishes ..
  · exact Or.inl ⟨fun s => rfl, fun s => executeTask_publishes ..⟩

theorem serveTask_silent (r : Request) : (serveTask C F r).Silent chain := by
  cases r with
  | getBlock height =>
    refine ⟨fun s => rfl, fun s => ?_⟩
    unfold lookUp
    split
    · trivial
    · exact ⟨fun s => rfl, fun s => trivial⟩
  | getLatestBlock =>
    refine ⟨fun s => rfl, fun s => ?_⟩
    dsimp only [Task.Silent]
    split
    · trivial
    · exact ⟨fun s => rfl, fun s => trivial⟩
  | getValidators => exact ⟨fun s => rfl, fun s => trivial⟩
  | getStakingInfo pubkey => trivial
  | getFeeInfo => exact ⟨fun s => rfl, fun s => trivial⟩
  | health => exact ⟨fun s => rfl, fun s => ⟨fun s => rfl, fun s => trivial⟩⟩
  | submitTransaction req =>
    show Task.Silent chain (submitTransactionTask C F req)
    unfold submitTransactionTask
    split
    · trivial
    · exact ⟨fun s => chain_letIn C F s _, fun s => trivial⟩
  | getAccount pubkey =>
    show Task.Silent chain (getAccountTask F pubkey)
    unfold getAccountTask
    split
    · trivial
    · exact ⟨fun s => rfl, fun s => trivial⟩

theorem SideTask.silent {t : ValidatorTask} (h : SideTask C t) : t.Silent chain := by
  cases h with
  | propose env signingKey height =>
    exact ⟨fun s => rfl, fun s => ⟨fun s => rfl, fun s => trivial⟩⟩
  | gossiped tx => exact ⟨fun s => rfl, fun s => trivial⟩
  | save => exact ⟨fun s => rfl, fun s => trivial⟩

/-- A block stands in the store at its height. -/
def Indexed (blocks : List BlockResponse) : Prop :=
  ∀ (i : Nat) (b : BlockResponse), blocks[i]? = some b → b.height.toNat = i

/-- Between two commits: the height is that of the last block. -/
def Settled (c : UInt64 × List BlockResponse) : Prop :=
  Indexed c.2 ∧ (c.2 = [] ∧ c.1 = 0 ∨ c.1.toNat + 1 = c.2.length)

/-- At any moment: the height is that of the last block or of the next. -/
def Visible (c : UInt64 × List BlockResponse) : Prop :=
  Indexed c.2 ∧ (c.1.toNat = c.2.length ∨ c.1.toNat + 1 = c.2.length)

theorem Settled.visible {c : UInt64 × List BlockResponse} (h : Settled c) : Visible c := by
  refine ⟨h.1, ?_⟩
  rcases h.2 with ⟨hnil, hzero⟩ | hlast
  · left
    rw [hnil, hzero]
    rfl
  · exact Or.inr hlast

theorem Indexed.concat {blocks : List BlockResponse} (h : Indexed blocks) {b : BlockResponse}
    (hb : b.height.toNat = blocks.length) : Indexed (blocks ++ [b]) := by
  intro i b' hi
  rw [List.getElem?_append] at hi
  split at hi
  · exact h i b' hi
  · rename_i hge
    rw [List.getElem?_singleton] at hi
    split at hi
    · cases hi
      omega
    · cases hi

/-- The loop's thread between two commits, before the height of the next is written, or in the
window between its height and its block. -/
def LoopAt (c : UInt64 × List BlockResponse) (t : ValidatorTask) : Prop :=
  t.Silent chain ∧ Settled c ∨
  (∃ h, Publishes h t ∧ Settled c ∧ h.toNat = c.2.length) ∨
  ∃ h, Stores h t ∧ Indexed c.2 ∧ c.1 = h ∧ h.toNat = c.2.length

theorem LoopAt.visible {c : UInt64 × List BlockResponse} {t : ValidatorTask} (h : LoopAt c t) :
    Visible c := by
  rcases h with ⟨-, hset⟩ | ⟨h, -, hset, -⟩ | ⟨h, -, hidx, hcur, hlen⟩
  · exact hset.visible
  · exact hset.visible
  · rw [← hcur] at hlen
    exact ⟨hidx, Or.inl hlen⟩

theorem LoopAt.settled {c : UInt64 × List BlockResponse} {t : ValidatorTask} (h : LoopAt c t)
    (hf : t.Finished) : Settled c := by
  obtain ⟨r, rfl⟩ := hf
  rcases h with ⟨-, hset⟩ | ⟨h, -, hset, -⟩ | ⟨h, hst, -⟩
  · exact hset
  · exact hset
  · exact hst.elim

/-- **A step of the loop.** The store only grows. -/
theorem LoopAt.step {l : ι} {sys sys' : Threads ι Lock Shared Outcome}
    (h : LoopAt (chain sys.shared) (sys.thread l).task) (hs : Threads.Step sys l sys') :
    LoopAt (chain sys'.shared) (sys'.thread l).task ∧ store sys.shared <+: store sys'.shared := by
  have hsame : ∀ {s s' : Shared}, chain s' = chain s → store s <+: store s' := by
    intro s s' he
    have he : store s' = store s := congrArg Prod.snd he
    rw [he]
  rcases h with ⟨hsil, hset⟩ | ⟨h, hpub, hset, hlen⟩ | ⟨h, hst, hidx, hcur, hlen⟩
  · obtain ⟨hc, hsil'⟩ := hs.silent hsil
    rw [hc]
    exact ⟨Or.inl ⟨hsil', hset⟩, hsame hc⟩
  · cases hs with
    | acquire ht _ =>
      rw [ht] at hpub
      rw [Threads.put_self]
      exact ⟨Or.inr (Or.inl ⟨h, hpub, hset, hlen⟩), List.prefix_rfl⟩
    | release ht =>
      rw [ht] at hpub
      rw [Threads.put_self]
      exact ⟨Or.inr (Or.inl ⟨h, hpub, hset, hlen⟩), List.prefix_rfl⟩
    | @act f rest ht =>
      rw [ht] at hpub
      rw [Threads.put_self]
      show LoopAt (chain (f sys.shared)) _ ∧ store sys.shared <+: store (f sys.shared)
      rcases hpub with ⟨hkeep, hrest⟩ | ⟨hwrite, hrest⟩
      · refine ⟨?_, hsame (hkeep _)⟩
        rw [hkeep]
        exact Or.inr (Or.inl ⟨h, hrest _, hset, hlen⟩)
      · -- the height is written: the window opens
        have hstore : store (f sys.shared) = store sys.shared :=
          congrArg Prod.snd (hwrite sys.shared)
        refine ⟨?_, by rw [hstore]⟩
        rw [hwrite]
        exact Or.inr (Or.inr ⟨h, hrest _, hset.1, rfl, hlen⟩)
  · cases hs with
    | acquire ht _ =>
      rw [ht] at hst
      rw [Threads.put_self]
      exact ⟨Or.inr (Or.inr ⟨h, hst, hidx, hcur, hlen⟩), List.prefix_rfl⟩
    | release ht =>
      rw [ht] at hst
      rw [Threads.put_self]
      exact ⟨Or.inr (Or.inr ⟨h, hst, hidx, hcur, hlen⟩), List.prefix_rfl⟩
    | @act f rest ht =>
      rw [ht] at hst
      rw [Threads.put_self]
      show LoopAt (chain (f sys.shared)) _ ∧ store sys.shared <+: store (f sys.shared)
      rcases hst with ⟨hkeep, hrest⟩ | ⟨hpush, hrest⟩
      · refine ⟨?_, hsame (hkeep _)⟩
        rw [hkeep]
        exact Or.inr (Or.inr ⟨h, hrest _, hidx, hcur, hlen⟩)
      · -- the block is stored: the window closes
        obtain ⟨b, hb, hc⟩ := hpush sys.shared
        have hstore : store (f sys.shared) = store sys.shared ++ [b] := congrArg Prod.snd hc
        refine ⟨?_, by rw [hstore]; exact List.prefix_append ..⟩
        rw [hc]
        refine Or.inl ⟨hrest _, hidx.concat ?_, Or.inr ?_⟩
        · rw [hb]
          exact hlen
        · have hcur : sys.shared.rpc.currentHeight = h := hcur
          rw [List.length_append, hcur, hlen]
          rfl

/-- The tasks of the validator's threads: the loop's on its own thread, with the commits in the
order of their heights (as `heights_of_run` has them where no peer announces a commit), and requests
on the others. -/
inductive Spawns (C : Crates) (F : FileCrates) (genesis : GenesisConfig) (l : ι) (s : Shared) :
    ι → ValidatorTask → Prop
  | request {i : ι} (r : Request) : i ≠ l → Spawns C F genesis l s i (serveTask C F r)
  | side {t : ValidatorTask} : SideTask C t → Spawns C F genesis l s l t
  | commit (c : ValidatorNode.CommitCall) : c.height.val.toNat = s.rpc.blockStore.length →
      Spawns C F genesis l s l (commitTask C genesis c)

omit [DecidableEq ι] in
theorem Spawns.isTask {l i : ι} {s : Shared} {t : ValidatorTask}
    (h : Spawns C F genesis l s i t) : IsTask C F genesis t := by
  cases h with
  | request r _ => exact .request r
  | side h => exact .side h
  | commit c _ => exact .commit c

/-- What holds at every moment of the validator: all states met since the store was `base` are
visible ones, and the store grew through them. -/
structure Growing (l : ι) (base : List BlockResponse) (visited : List Shared)
    (sys : Threads ι Lock Shared Outcome) : Prop where
  quiet : ∀ i, i ≠ l → (sys.thread i).task.Silent chain
  loop : LoopAt (chain sys.shared) (sys.thread l).task
  seen : ∀ s ∈ visited, Visible (chain s) ∧ base <+: store s ∧ store s <+: store sys.shared

theorem Growing.step {l i : ι} {base : List BlockResponse} {visited : List Shared}
    {sys sys' : Threads ι Lock Shared Outcome} (h : Growing l base visited sys)
    (hv : ∃ earlier, visited = sys.shared :: earlier) (hs : Threads.Step sys i sys') :
    Growing l base (sys'.shared :: visited) sys' := by
  have hnext : (∀ k, k ≠ l → (sys'.thread k).task.Silent chain) ∧
      LoopAt (chain sys'.shared) (sys'.thread l).task ∧
      store sys.shared <+: store sys'.shared := by
    by_cases hi : i = l
    · subst hi
      refine ⟨fun k hk => ?_, h.loop.step hs⟩
      rw [hs.other hk]
      exact h.quiet k hk
    · obtain ⟨hc, hsil⟩ := hs.silent (h.quiet i hi)
      have hstore : store sys'.shared = store sys.shared := congrArg Prod.snd hc
      refine ⟨fun k hk => ?_, ?_, by rw [hstore]⟩
      · by_cases hki : k = i
        · subst hki
          exact hsil
        · rw [hs.other hki]
          exact h.quiet k hk
      · rw [hc, hs.other (Ne.symm hi)]
        exact h.loop
  obtain ⟨hquiet, hloop, hgrow⟩ := hnext
  refine ⟨hquiet, hloop, fun s hmem => ?_⟩
  rcases List.mem_cons.mp hmem with rfl | hmem
  · obtain ⟨earlier, rfl⟩ := hv
    obtain ⟨-, hbase, -⟩ := h.seen sys.shared List.mem_cons_self
    exact ⟨hloop.visible, hbase.trans hgrow, List.prefix_rfl⟩
  · obtain ⟨hvis, hbase, hle⟩ := h.seen s hmem
    exact ⟨hvis, hbase, hle.trans hgrow⟩

theorem Growing.spawn {l i : ι} {base : List BlockResponse} {visited : List Shared}
    {sys : Threads ι Lock Shared Outcome} {t : ValidatorTask} (h : Growing l base visited sys)
    (hf : (sys.thread i).task.Finished) (hsp : Spawns C F genesis l sys.shared i t) :
    Growing l base visited (sys.put i ⟨(sys.thread i).held, t⟩) := by
  refine ⟨fun k hk => ?_, ?_, h.seen⟩
  · by_cases hki : k = i
    · subst hki
      rw [Threads.put_self]
      cases hsp with
      | request r _ => exact serveTask_silent r
      | side _ => exact absurd rfl hk
      | commit c _ => exact absurd rfl hk
    · rw [Threads.put_of_ne sys _ hki]
      exact h.quiet k hk
  · cases hsp with
    | request r hne =>
      rw [Threads.put_of_ne sys _ (Ne.symm hne)]
      exact h.loop
    | side hside =>
      rw [Threads.put_self]
      exact Or.inl ⟨hside.silent, h.loop.settled hf⟩
    | commit c hlen =>
      rw [Threads.put_self]
      exact Or.inr (Or.inl ⟨_, commitTask_publishes C genesis c, h.loop.settled hf, hlen⟩)

theorem Growing.reach {l : ι} {base : List BlockResponse}
    {spawns : Shared → ι → ValidatorTask → Prop} {sys₁ sys₂ : Threads ι Lock Shared Outcome}
    {visited : List Shared} (h : Growing l base [sys₁.shared] sys₁)
    (hr : Threads.Reach spawns sys₁ visited sys₂)
    (hspawns : ∀ {s i t}, spawns s i t → Spawns C F genesis l s i t) :
    Growing l base visited sys₂ := by
  refine hr.invariant (I := fun visited sys => Growing l base visited sys) h ?_ ?_
  · intro visited sys sys' i hr ih hs
    exact ih.step hr.visited_eq hs
  · intro visited sys i t _ ih hf hsp
    exact ih.spawn hf (hspawns hsp)

/-- A system that has just been started: nothing runs and nothing is stored. -/
structure Fresh (sys : Threads ι Lock Shared Outcome) : Prop where
  idle : sys.Idle
  height : sys.shared.rpc.currentHeight = 0
  empty : sys.shared.rpc.blockStore = []

omit [DecidableEq ι] in
theorem Fresh.growing {sys : Threads ι Lock Shared Outcome} (h : Fresh sys) (l : ι) :
    Growing l [] [sys.shared] sys := by
  have hset : Settled (chain sys.shared) := by
    refine ⟨?_, Or.inl ⟨h.empty, h.height⟩⟩
    intro i b hi
    have hi : sys.shared.rpc.blockStore[i]? = some b := hi
    rw [h.empty] at hi
    cases hi
  have hsil : ∀ i, (sys.thread i).task.Silent chain := by
    intro i
    obtain ⟨r, hr⟩ := (h.idle i).2
    rw [hr]
    trivial
  refine ⟨fun i _ => hsil i, Or.inl ⟨hsil l, hset⟩, fun s hs => ?_⟩
  rw [List.mem_singleton] at hs
  subst hs
  exact ⟨hset.visible, List.nil_prefix, List.prefix_rfl⟩

/-! ## What a client is told -/

/-- A request in a run of the validator: thread `j` is given its task in `sys₁`, other threads go on
as they like, and in `sys₂` it is answered. The loop's commits come in the order of their heights
(`Spawns.commit`). -/
structure Asked (C : Crates) (F : FileCrates) (genesis : GenesisConfig) (l j : ι) (r : Request)
    (sys₁ : Threads ι Lock Shared Outcome) (during : List Shared)
    (sys₂ : Threads ι Lock Shared Outcome) (answer : Outcome) : Prop where
  before : ∃ sys₀ visited, Fresh sys₀ ∧ Threads.Reach (Spawns C F genesis l) sys₀ visited sys₁
  given : sys₁.thread j = ⟨[], serveTask C F r⟩
  run : Threads.Reach (fun s i t => i ≠ j ∧ Spawns C F genesis l s i t) sys₁ during sys₂
  answered : (sys₂.thread j).task = .done answer

variable {l j : ι} {r : Request} {sys₁ sys₂ : Threads ι Lock Shared Outcome}
  {during : List Shared} {answer : Outcome}

theorem Errand.spawns {s : Shared} {i : Bool} {e : Errand} (h : e.Admitted s i) :
    Spawns Crates.sample FileCrates.sample (ValidatorNode.pairGenesis 3) false s i e.task := by
  cases e with
  | request r =>
    cases h
    exact .request r (by decide)
  | commit c =>
    obtain ⟨rfl, hlen⟩ := h
    exact .commit c hlen

theorem pairThreads_fresh : Fresh pairThreads := ⟨pairThreads_idle, rfl, rfl⟩

theorem Asked.growing (h : Asked C F genesis l j r sys₁ during sys₂ answer) :
    Growing l (store sys₁.shared) during sys₂ := by
  obtain ⟨sys₀, visited, hfresh, hreach⟩ := h.before
  have hbefore := (hfresh.growing l).reach hreach fun hsp => hsp
  refine Growing.reach ⟨hbefore.quiet, hbefore.loop, fun s hs => ?_⟩ h.run fun hsp => hsp.2
  rw [List.mem_singleton] at hs
  subst hs
  exact ⟨hbefore.loop.visible, List.prefix_rfl, List.prefix_rfl⟩

theorem Asked.moment (h : Asked C F genesis l j r sys₁ during sys₂ answer)
    (hlatest : r ≠ .getLatestBlock) (hhealth : r ≠ .health) :
    ∃ s, Threads.Moment during s (served C F r s).1 ∧ answer = (served C F r s).2 := by
  obtain ⟨sys₀, visited, hfresh, hreach⟩ := h.before
  have hd : sys₁.Disciplined lockRank :=
    hreach.disciplined (hfresh.idle.disciplined lockRank) fun hsp => hsp.isTask.sound.ordered
  have hg : sys₁.Guards .blockStore store :=
    hreach.guards (hfresh.idle.disciplined lockRank) (hfresh.idle.guards _ _)
      fun hsp => ⟨hsp.isTask.sound.ordered, hsp.isTask.sound.respects⟩
  have hstart : Threads.Stage (served C F r) .blockStore store j [sys₁.shared] sys₁ := by
    unfold Threads.Stage
    rw [h.given]
    rcases serveTask_momentary (C := C) (F := F) r hlatest hhealth with hat | ⟨a, hdone, hspec⟩
    · exact Or.inl ⟨none, hat, fun a ha => by cases ha⟩
    · refine Or.inr ⟨sys₁.shared, ⟨by simp, Or.inl ?_⟩, ?_⟩
      · rw [hspec]
      · rw [hspec]
        show Task.Closing a (serveTask C F r)
        rw [hdone]
        rfl
  exact Threads.linearizes h.run hd hg
    (fun hsp => ⟨hsp.1, hsp.2.isTask.sound.ordered, hsp.2.isTask.sound.respects⟩) hstart h.answered

theorem pairWindow_reach :
    Threads.Reach (Spawns Crates.sample FileCrates.sample (ValidatorNode.pairGenesis 3) false)
      pairThreads (pairReplay.get pairReplay_isSome).1 pairWindow :=
  Threads.Reach.of_play _ _ (fun _ _ _ h => Errand.spawns h) .init pairReplay_eq

/-- The block of an answer that has one. -/
def Outcome.block? : Outcome → Option BlockResponse
  | .reply (.block (.ok b)) => some b
  | _ => none

theorem Outcome.eq_of_block? {a : Outcome} {b : BlockResponse} (h : a.block? = some b) :
    a = .reply (.block (.ok b)) := by
  unfold Outcome.block? at h
  split at h
  · cases h
    rfl
  · cases h

/-- The answer of a task that is done. -/
def outcome? : ValidatorTask → Option Outcome
  | .done r => some r
  | _ => none

theorem eq_done_of_outcome? {t : ValidatorTask} {r : Outcome} (h : outcome? t = some r) :
    t = .done r := by
  cases t with
  | done r' => cases h; rfl
  | _ => cases h

/-- A schedule in which the client's request, made in `sys`, is answered. -/
theorem Asked.of_play (r : Request) (moves : List (Threads.Move Bool Errand))
    {P : List Shared → Threads Bool Lock Shared Outcome → Outcome → Prop}
    {sys : Threads Bool Lock Shared Outcome} {visited : List Shared}
    (hr : Threads.Reach (Spawns Crates.sample FileCrates.sample (ValidatorNode.pairGenesis 3) false)
      pairThreads visited sys)
    (hfree : (sys.thread true).held = [] ∧ (sys.thread true).task.Finished)
    (h : ∃ p ∈ Threads.play Errand.task (fun s i e => i ≠ true ∧ e.Admitted s i)
      (sys.put true ⟨[], Errand.task (.request r)⟩) [sys.shared] moves,
        ∃ a ∈ outcome? (p.2.thread true).task, P p.1 p.2 a) :
    ∃ sys₁ during sys₂ answer, Asked Crates.sample FileCrates.sample (ValidatorNode.pairGenesis 3)
      false true r sys₁ during sys₂ answer ∧ P during sys₂ answer := by
  obtain ⟨p, hplay, answer, hanswer, hP⟩ := h
  refine ⟨sys.put true ⟨[], Errand.task (.request r)⟩, p.1, p.2, answer, ⟨?_, ?_, ?_,
    eq_done_of_outcome? hanswer⟩, hP⟩
  · refine ⟨pairThreads, visited, pairThreads_fresh, ?_⟩
    have hspawn := Threads.Reach.spawn true _ hr hfree.2 (.request r (by decide))
    rw [hfree.1] at hspawn
    exact hspawn
  · exact Threads.put_self ..
  · exact Threads.Reach.of_play _ _ (fun _ _ _ h => ⟨h.1, Errand.spawns h.2⟩) .init hplay

/-- **What `get_block` answers** while the commits come in the order of their heights. The block of
that height, once it is stored; before, an error, or for the height of the commit in progress (and
for zero before the first commit) a block of zeros. -/
theorem getBlock_answers {height : UInt64}
    (h : Asked C F genesis l j (.getBlock height) sys₁ during sys₂ answer) :
    ∃ s ∈ during, sys₁.shared.rpc.blockStore <+: s.rpc.blockStore ∧
      s.rpc.blockStore <+: sys₂.shared.rpc.blockStore ∧
      ((∃ b, s.rpc.blockStore[height.toNat]? = some b ∧ b.height = height ∧
          answer = .reply (.block (.ok b))) ∨
        (s.rpc.blockStore.length = height.toNat ∧ s.rpc.currentHeight = height ∧
          answer = .reply (.block (.ok (placeholder height)))) ∨
        s.rpc.blockStore.length ≤ height.toNat ∧ s.rpc.currentHeight < height ∧
          answer = .reply (.block (.error (notCommitted height s.rpc.currentHeight)))) := by
  obtain ⟨s, ⟨hmem, -⟩, hanswer⟩ := h.moment (by simp) (by simp)
  obtain ⟨⟨hidx, hcur⟩, hbase, hle⟩ := h.growing.seen s hmem
  refine ⟨s, hmem, hbase, hle, ?_⟩
  have hanswer : answer = .reply (.block (s.rpc.getBlock height)) := hanswer
  have hidx : Indexed s.rpc.blockStore := hidx
  have hcur : s.rpc.currentHeight.toNat = s.rpc.blockStore.length ∨
    s.rpc.currentHeight.toNat + 1 = s.rpc.blockStore.length := hcur
  unfold RpcState.getBlock at hanswer
  cases hb : s.rpc.blockStore[height.toNat]? with
  | some b =>
    rw [hb] at hanswer
    exact Or.inl ⟨b, rfl, UInt64.toNat_inj.mp (hidx _ _ hb), hanswer⟩
  | none =>
    rw [hb] at hanswer
    dsimp only [missingBlock] at hanswer
    have hlen : s.rpc.blockStore.length ≤ height.toNat := List.getElem?_eq_none_iff.mp hb
    split at hanswer
    · rename_i hgt
      exact Or.inr (Or.inr ⟨hlen, hgt, hanswer⟩)
    · -- at most one height is written ahead of its block
      rename_i hgt
      have hgt : ¬ s.rpc.currentHeight.toNat < height.toNat := hgt
      exact Or.inr (Or.inl ⟨by omega, UInt64.toNat_inj.mp (by omega), hanswer⟩)

/-- In the window, the block of height 1 is zeros. -/
theorem getBlock_answers_window : ∃ sys₁ during sys₂ answer,
    Asked Crates.sample FileCrates.sample (ValidatorNode.pairGenesis 3) false true (.getBlock 1)
      sys₁ during sys₂ answer ∧ answer = .reply (.block (.ok (placeholder 1))) := by
  obtain ⟨sys₁, during, sys₂, answer, hasked, hwindow⟩ := Asked.of_play
    (P := fun during _ _ => ∀ s ∈ during, s.rpc.blockStore.length = 1 ∧ s.rpc.currentHeight = 1)
    (.getBlock 1) (List.replicate 6 (.step true)) pairWindow_reach (by decide +kernel)
    (by decide +kernel)
  refine ⟨sys₁, during, sys₂, answer, hasked, ?_⟩
  obtain ⟨s, hmem, -, -, hcases⟩ := getBlock_answers hasked
  obtain ⟨hlen, hcur⟩ := hwindow s hmem
  rcases hcases with ⟨b, hb, -⟩ | ⟨-, -, hzeros⟩ | ⟨-, hlt, -⟩
  · -- no block of height 1 is stored yet
    obtain ⟨hbound, -⟩ := List.getElem?_eq_some_iff.mp hb
    rw [hlen] at hbound
    exact absurd hbound (by decide)
  · exact hzeros
  · rw [hcur] at hlt
    exact absurd hlt (by decide)

/-- **What `get_latest_block` answers** while the commits come in the order of their heights. The
last block of one moment, at the height the store's length gives; but when the store was empty at
that moment, a block of zeros whose height is that of a later moment, when the store may already
have a block there. -/
theorem getLatestBlock_answers (h : Asked C F genesis l j .getLatestBlock sys₁ during sys₂ answer) :
    (∃ s ∈ during, ∃ b, s.rpc.blockStore.getLast? = some b ∧
        b.height.toNat + 1 = s.rpc.blockStore.length ∧ answer = .reply (.block (.ok b))) ∨
      sys₁.shared.rpc.blockStore = [] ∧ ∃ s s', [s, s'].Sublist during.reverse ∧
        s.rpc.blockStore = [] ∧
        answer = .reply (.block (.ok (placeholder s'.rpc.currentHeight))) := by
  obtain ⟨seen, hsub, hseen⟩ := Threads.answers h.run (fun hsp => hsp.1) h.answered
  rw [h.given] at hseen
  have hmem : ∀ s ∈ seen, s ∈ during := fun s hs => List.mem_reverse.mp (hsub.subset hs)
  cases seen with
  | nil => cases hseen
  | cons s later =>
    obtain ⟨⟨hidx, -⟩, hbase, -⟩ := h.growing.seen s (hmem s List.mem_cons_self)
    have hidx : Indexed s.rpc.blockStore := hidx
    have hbase : sys₁.shared.rpc.blockStore <+: s.rpc.blockStore := hbase
    dsimp only [serveTask, getLatestBlockTask, Task.peek, Task.under, Task.answer] at hseen
    cases hb : s.rpc.blockStore.getLast? with
    | some b =>
      rw [hb] at hseen
      cases later with
      | nil =>
        cases hseen
        refine Or.inl ⟨s, hmem s List.mem_cons_self, b, hb, ?_, rfl⟩
        have hlast := hb
        rw [List.getLast?_eq_getElem?] at hlast
        have hpos : s.rpc.blockStore ≠ [] := by
          intro hnil
          rw [hnil] at hb
          cases hb
        have hlen := List.length_pos_iff.mpr hpos
        have hheight := hidx _ b hlast
        omega
      | cons _ _ => cases hseen
    | none =>
      rw [hb] at hseen
      have hnil : s.rpc.blockStore = [] := List.getLast?_eq_none_iff.mp hb
      cases later with
      | nil => cases hseen
      | cons s' more =>
        cases more with
        | nil =>
          cases hseen
          refine Or.inr ⟨?_, s, s', hsub, hnil, rfl⟩
          rw [hnil] at hbase
          exact List.prefix_nil.mp hbase
        | cons _ _ => cases hseen

/-- The store is found empty, the heights 0 and 1 are committed, and then the height is read: the
answer is a block of zeros at height 1, although the store has a block there. -/
theorem getLatestBlock_answers_race : ∃ sys₁ during sys₂ answer,
    Asked Crates.sample FileCrates.sample (ValidatorNode.pairGenesis 3) false true .getLatestBlock
      sys₁ during sys₂ answer ∧ answer = .reply (.block (.ok (placeholder 1))) ∧
    (∃ b, sys₂.shared.rpc.blockStore[1]? = some b ∧ b ≠ placeholder 1) ∧
    ∃ s s', [s, s'].Sublist during.reverse ∧ s.rpc.blockStore = [] ∧
      answer = .reply (.block (.ok (placeholder s'.rpc.currentHeight))) := by
  obtain ⟨sys₁, during, sys₂, answer, hasked, hzeros, hstored, hblocks⟩ := Asked.of_play
    (P := fun during sys₂ answer => answer.block? = some (placeholder 1) ∧
      (∃ b ∈ sys₂.shared.rpc.blockStore[1]?, b ≠ placeholder 1) ∧
      ∀ s ∈ during, ∀ b ∈ s.rpc.blockStore, b ≠ placeholder 1)
    .getLatestBlock
    (List.replicate 3 (.step true) ++ pairCommit 0 25 ++ pairCommit 1 25 ++
      List.replicate 3 (.step true)) .init (by decide +kernel) (by decide +kernel)
  refine ⟨sys₁, during, sys₂, answer, hasked, Outcome.eq_of_block? hzeros, hstored, ?_⟩
  rcases getLatestBlock_answers hasked with ⟨s, hmem, b, hlast, -, hanswer⟩ | ⟨-, hempty⟩
  · -- a stored block is not a block of zeros
    rw [hanswer] at hzeros
    cases hzeros
    exact absurd rfl (hblocks s hmem _ (List.mem_of_getLast? hlast))
  · exact hempty

end Trv1Chain.Rpc
