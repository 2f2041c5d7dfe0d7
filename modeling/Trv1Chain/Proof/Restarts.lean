import Trv1Chain.Proof.SavedState
import Trv1Chain.Proof.ServedChain
import Trv1Chain.Validator.Process

/-!
# What survives a restart

A validator is started, runs, and is shut down or killed, any number of times over one data
directory. The accounts go on from the last shutdown in order: they are those of the genesis with
the transactions of all lives that were saved, and of the present one, executed one after another
(`ledger_survives_restarts`). So neither the supply nor the protection against replay ends with the
process (`restarts_keep_the_books`). The chain does not go on: every life decides the heights from
zero again (`restarts_forget_the_chain`).
-/

set_option autoImplicit false

namespace Trv1Chain

open Lib Genesis ValidatorSet

/-! ## The file -/

namespace StateDb

theorem Same.trans {db₁ db₂ db₃ : StateDb} (h : db₁.Same db₂) (h' : db₂.Same db₃) :
    db₁.Same db₃ := fun k => (h k).trans (h' k)

theorem Same.supply {db db' : StateDb} (h : db.Same db') : db.supply = db'.supply :=
  HashMap.total_congr _ h

/-- A file whose keys are hex forms loads, as the map it holds. -/
theorem loadFromFile_ok {F : FileCrates} (hF : F.Reliable) {fs : Storage.FileSystem}
    {path : Storage.Path} {text : List UInt8} {m : HashMap Text AccountState}
    (hfile : fs.lookup path = some text) (hutf8 : F.isUtf8 text = true)
    (hm : F.fromStr text = .ok m) (hkeys : ∀ t ∈ m, IsHexKey t) (it : TextOrder) :
    ∃ db, loadFromFile F it fs path = .ok db ∧
      ∀ k, db.getAccount k = m.lookup (toHex k.toList) := by
  have hperm := it.perm m.entries
  have hnodup := (List.perm_nodupKeys hperm).mpr m.nodupKeys
  have hentries : ∀ e ∈ it.enum m.entries, IsHexKey e.1 := by
    intro e he
    have hlookup : m.lookup e.1 = some e.2 := AList.mem_lookup_iff.mpr (it.mem_enum.mp he)
    exact hkeys e.1 (AList.lookup_isSome.mp (by rw [hlookup]; rfl))
  obtain ⟨accounts, hload, hlookup⟩ := loadEntries_ok hF hentries hnodup ∅
  refine ⟨⟨accounts⟩, ?_, fun k => ?_⟩
  · unfold loadFromFile
    rw [hfile]
    dsimp only
    rw [if_neg (by rw [hutf8]; decide), hm]
    dsimp only
    rw [hload]
  · show accounts.lookup k = _
    rw [hlookup, AList.lookup_empty, Option.or_none, List.perm_dlookup _ hnodup hperm]
    rfl

end StateDb

namespace Site

variable {site : Site}

theorem restore_missing {fs : Storage.FileSystem} (h : fs.lookup site.stateFile = none)
    (it : TextOrder) : site.restore it fs = site.genesis.stateDb := by
  unfold restore
  rw [h]
  rfl

/-- **What is saved at the end is found at the next start.** -/
theorem restore_save (hF : site.files.Reliable) {it : AccountOrder} {itHex : TextOrder}
    {db : StateDb} {fs : Storage.FileSystem} (hsaves : site.Saves it itHex db fs)
    (itLoad : TextOrder) : (site.restore itLoad (site.save it itHex db fs)).Same db := by
  have hperm := itHex.perm (db.hexMap site.files it).entries
  have hnodup := (List.perm_nodupKeys hperm).mpr (db.hexMap site.files it).nodupKeys
  unfold Saves StateDb.saveToFile at hsaves
  unfold save StateDb.saveToFile
  cases hjson : site.files.toStringPretty (itHex.enum (db.hexMap site.files it).entries) with
  | error e =>
    rw [hjson] at hsaves
    cases hsaves
  | ok json =>
    dsimp only
    obtain ⟨hutf8, m, hm, hlookup⟩ := hF.reads _ json hnodup hjson
    have hsame : ∀ t, m.lookup t = (db.hexMap site.files it).lookup t :=
      fun t => (hlookup t).trans (List.perm_dlookup t hnodup hperm)
    have hkeys : ∀ t ∈ m, IsHexKey t := by
      intro t ht
      refine StateDb.isHexKey_hexMap hF it db t (AList.lookup_isSome.mp ?_)
      rw [← hsame]
      exact AList.lookup_isSome.mpr ht
    have hfile := AList.lookup_insert (s := fs) (a := site.stateFile) (b := json)
    obtain ⟨db', hload, hget⟩ := StateDb.loadFromFile_ok hF hfile hutf8 hm hkeys itLoad
    unfold restore
    rw [hfile, hload]
    intro k
    show db'.getAccount k = db.getAccount k
    rw [hget, hsame]
    exact StateDb.lookup_hexMap hF it db k

theorem save_of_not_saves {it : AccountOrder} {itHex : TextOrder} {db : StateDb}
    {fs : Storage.FileSystem} (h : ¬ site.Saves it itHex db fs) :
    site.save it itHex db fs = fs := by
  unfold Saves at h
  unfold save
  cases hs : db.saveToFile site.files it itHex fs site.stateFile with
  | error e => rfl
  | ok fs' =>
    rw [hs] at h
    exact absurd rfl h

end Site

/-! ## One life -/

namespace ValidatorNode

variable {C : Crates}

theorem handleEpochs_node {o : RotationOrder} {v' : ValidatorNode C} :
    ∀ {acts : List Action} {v : ValidatorNode C}, handleEpochs o v acts = some v' →
      v'.node = v.node := by
  intro acts
  induction acts with
  | nil =>
    intro v h
    cases h
    rfl
  | cons a acts ih =>
    intro v h
    cases a with
    | applyCommit height x txs =>
      unfold handleEpochs at h
      cases hone : handleEpoch o v height with
      | none =>
        rw [hone] at h
        cases h
      | some v₁ =>
        rw [hone] at h
        rw [ih h]
        rcases handleEpoch_cases hone with ⟨-, rfl⟩ | ⟨-, m, swaps, -, rfl⟩
        · rfl
        · rfl
    | _ => exact ih h

/-- A turn of the process is one of its node. -/
theorem handle_node {v v' : ValidatorNode C} {e : RotationOrder × Env × NodeEvent}
    {acts : List Action} (h : v.handle e = some (v', acts)) :
    v.node.handle e.2 = some (v'.node, acts) := by
  unfold handle at h
  cases hn : v.node.handle e.2 with
  | none =>
    rw [hn] at h
    cases h
  | some r =>
    rw [hn] at h
    obtain ⟨w, hw, heq⟩ := Option.map_eq_some_iff.mp h
    obtain ⟨rfl, rfl⟩ := Prod.mk.inj heq
    have hnode : w.node = r.1 := handleEpochs_node hw
    rw [hnode]

theorem boot_node {env : Env} {genesis : GenesisConfig} {signingKey : Option (Bytes 32)}
    {stateDb : StateDb} {v : ValidatorNode C} {acts : List Action}
    (h : boot C env genesis signingKey stateDb = some (v, acts)) :
    v.node.stateDb = stateDb ∧ v.node.bft.height = ⟨0⟩ ∧ Node.Serves [] v.node := by
  unfold boot at h
  split at h
  · cases h
  · cases h
    refine ⟨?_, ?_, Node.serves_start _⟩
    · exact (Node.proposeIfProposer_proposes _ _ _ _).stateDb
    · exact (Node.proposeIfProposer_proposes _ _ _ _).height

end ValidatorNode

/-- The node has come this far in a life that began with these accounts. -/
def Node.Lives {C : Crates} (G : Node C → Env × NodeEvent → Prop) (base : StateDb)
    (life : List Commit) (n : Node C) : Prop :=
  ∃ n₀ hist, NodeRun C G n₀ hist n ∧ commits hist = life ∧ n₀.stateDb = base ∧
    n₀.bft.height = ⟨0⟩ ∧ Node.Serves [] n₀

/-! ## All lives -/

namespace Process

/-- The books of a process over its lives: the transactions behind the file, those behind the
accounts at the present start, and the commits since. -/
structure Books where
  written : List Transaction
  before : List Transaction
  life : List Commit

/-- Everything behind the accounts in memory. -/
def Books.executed (b : Books) : List Transaction := b.before ++ b.life.flatMap fun c => c.2.2

variable {C : Crates}

/-- The books after an event: a start takes up what is written, and a save writes what was
executed. -/
def Books.after (site : Site) (b : Books) (τ : Turn (Process C) ProcessEvent Action) : Books :=
  match τ.event with
  | .launch _ _ _ => ⟨b.written, b.written, []⟩
  | .turn _ => { b with life := b.life ++ τ.out.filterMap Action.commit? }
  | .shutdown it itHex =>
    match τ.before.running with
    | some v =>
      if site.Saves it itHex v.node.stateDb τ.before.fs then { b with written := b.executed } else b
    | none => b
  | .kill => b

def books (site : Site) : ProcessHistory C → Books
  | [] => ⟨[], [], []⟩
  | τ :: past => (books site past).after site τ

/-- The books are right: the file's accounts and those in memory are the genesis accounts after the
transactions on record. -/
structure Kept (site : Site) (G : Node C → Env × NodeEvent → Prop) (b : Books) (p : Process C) :
    Prop where
  file : ∀ it, (site.restore it p.fs).Same (site.genesis.stateDb.executeAll b.written)
  memory : ∀ v, p.running = some v → ∃ base, base.Same (site.genesis.stateDb.executeAll b.before) ∧
    v.node.Lives G base b.life

variable {site : Site} {G : Node C → Env × NodeEvent → Prop} {b : Books} {p : Process C}

theorem Kept.executed (h : Kept site G b p) {v : ValidatorNode C} (hv : p.running = some v) :
    v.node.stateDb.Same (site.genesis.stateDb.executeAll b.executed) := by
  obtain ⟨base, hbase, n₀, hist, hr, hlife, rfl, -⟩ := h.memory v hv
  rw [Node.stateDb_of_run hr, hlife]
  unfold Books.executed
  rw [Node.executeAll_append]
  exact hbase.executeAll _

theorem Kept.launch (h : Kept site G b p) (env : Env) (it : TextOrder)
    (signingKey : Option (Bytes 32)) (hidle : p.running = none) :
    Kept site G ⟨b.written, b.written, []⟩ (p.launch site env it signingKey).1 := by
  have hsame : Kept site G ⟨b.written, b.written, []⟩ p := by
    refine ⟨h.file, fun v hv => ?_⟩
    rw [hidle] at hv
    cases hv
  unfold Process.launch
  split
  · exact hsame
  · cases hboot : ValidatorNode.boot C env site.genesis signingKey (site.restore it p.fs) with
    | none => exact hsame
    | some r =>
      obtain ⟨hdb, hheight, hserves⟩ := ValidatorNode.boot_node hboot
      refine ⟨h.file, fun v hv => ?_⟩
      cases hv
      exact ⟨_, h.file it, r.1.node, [], .init, rfl, hdb, hheight, hserves⟩

theorem Kept.turn (h : Kept site G b p) {v v' : ValidatorNode C}
    {e : RotationOrder × Env × NodeEvent} {acts : List Action} (hv : p.running = some v)
    (hg : G v.node e.2) (hs : v.handle e = some (v', acts)) :
    Kept site G { b with life := b.life ++ acts.filterMap Action.commit? }
      { p with running := some v' } := by
  refine ⟨h.file, fun w hw => ?_⟩
  cases hw
  obtain ⟨base, hbase, n₀, hist, hr, hlife, hdb, hstart⟩ := h.memory v hv
  refine ⟨base, hbase, n₀, _, hr.turn hg (ValidatorNode.handle_node hs), ?_, hdb, hstart⟩
  rw [Node.commits_cons, hlife]

theorem Kept.stop (h : Kept site G b p) : Kept site G b { p with running := none } := by
  refine ⟨h.file, fun v hv => ?_⟩
  cases hv

theorem Kept.shutdown (hF : site.files.Reliable) (h : Kept site G b p) {v : ValidatorNode C}
    (hv : p.running = some v) (it : AccountOrder) (itHex : TextOrder) :
    Kept site G
      (if site.Saves it itHex v.node.stateDb p.fs then { b with written := b.executed } else b)
      ⟨site.save it itHex v.node.stateDb p.fs, none⟩ := by
  refine ⟨fun itLoad => ?_, fun w hw => by cases hw⟩
  split
  · rename_i hsaves
    exact (Site.restore_save hF hsaves itLoad).trans (h.executed hv)
  · rename_i hsaves
    rw [Site.save_of_not_saves hsaves]
    exact h.file itLoad

/-- **One event keeps the books.** -/
theorem Kept.step (hF : site.files.Reliable) {p' : Process C} {e : ProcessEvent}
    {acts : List Action} (h : Kept site G b p)
    (hG : ∀ v t, p.running = some v → e = .turn t → G v.node t.2)
    (hs : p.step site e = some (p', acts)) :
    Kept site G (b.after site ⟨p, e, p', acts⟩) p' := by
  unfold Process.step at hs
  cases e with
  | launch env it signingKey =>
    cases hrun : p.running with
    | some v =>
      rw [hrun] at hs
      cases hs
    | none =>
      rw [hrun] at hs
      have hp' : p' = (p.launch site env it signingKey).1 :=
        (congrArg Prod.fst (Option.some.inj hs)).symm
      rw [hp']
      exact h.launch env it signingKey hrun
  | turn t =>
    cases hrun : p.running with
    | none =>
      rw [hrun] at hs
      cases hs
    | some v =>
      rw [hrun] at hs
      dsimp only at hs
      cases hturn : v.handle t with
      | none =>
        rw [hturn] at hs
        cases hs
        -- a panic commits nothing that the books would have to show
        have hbooks : b.after site ⟨p, .turn t, { p with running := none }, []⟩ = b := by
          simp [Books.after]
        rw [hbooks]
        exact h.stop
      | some r =>
        rw [hturn] at hs
        cases hs
        exact h.turn hrun (hG v t hrun rfl) hturn
  | shutdown it itHex =>
    cases hrun : p.running with
    | none =>
      rw [hrun] at hs
      cases hs
    | some v =>
      rw [hrun] at hs
      cases hs
      unfold Books.after
      dsimp only
      rw [hrun]
      exact h.shutdown hF hrun it itHex
  | kill =>
    cases hs
    exact h.stop

/-- A data directory in which no validator has run. -/
structure Fresh (site : Site) (p : Process C) : Prop where
  noFile : p.fs.lookup site.stateFile = none
  idle : p.running = none

theorem kept_of_run (hF : site.files.Reliable) {GP : Process C → ProcessEvent → Prop}
    (hG : ∀ p e v t, GP p e → p.running = some v → e = .turn t → G v.node t.2)
    {p₀ : Process C} {hist : ProcessHistory C} (hfresh : Fresh site p₀)
    (hr : Run (Process.step site) GP p₀ hist p) : Kept site G (books site hist) p := by
  refine hr.invariant (I := fun hist p => Kept site G (books site hist) p) ⟨?_, ?_⟩ ?_
  · intro it
    rw [Site.restore_missing hfresh.noFile]
    exact StateDb.Same.refl _
  · intro v hv
    rw [hfresh.idle] at hv
    cases hv
  · intro hist p e p' acts _ ih hg hs
    exact ih.step hF (fun v t => hG p e v t hg) hs

/-! ## What survives -/

variable {p₀ : Process C} {hist : ProcessHistory C}

/-- **The accounts survive.** However often the validator was started, shut down and killed, the
next start finds the genesis accounts after the transactions on the books, and the running process
has them after those and its own. The blocks it serves are those of its own life. -/
theorem ledger_survives_restarts (hF : site.files.Reliable) (hfresh : Fresh site p₀)
    (hr : Run (Process.step site) (fun _ _ => True) p₀ hist p) :
    (∀ it, (site.restore it p.fs).Same
      (site.genesis.stateDb.executeAll (books site hist).written)) ∧
    ∀ v, p.running = some v →
      v.node.stateDb.Same (site.genesis.stateDb.executeAll (books site hist).executed) ∧
        Node.Serves (books site hist).life v.node := by
  have hkept : Kept site (fun _ _ => True) (books site hist) p :=
    kept_of_run hF (fun _ _ _ _ _ _ _ => trivial) hfresh hr
  refine ⟨hkept.file, fun v hv => ⟨hkept.executed hv, ?_⟩⟩
  obtain ⟨base, -, n₀, inner, hinner, hlife, -, -, hserves⟩ := hkept.memory v hv
  rw [← hlife]
  exact Node.serves_of_run hserves hinner

/-- One validator, and one account with 100. -/
def soloSite : Site := ⟨.sample, soloGenesis [⟨Crates.sampleKey 5, 100⟩], []⟩

def emptySite : Process Crates.sample := ⟨∅, none⟩

theorem emptySite_fresh : Fresh soloSite emptySite := ⟨rfl, rfl⟩

/-- A life in which a transfer of 10 is submitted and the decision of height 0 takes it in. -/
def soloLife : List ProcessEvent :=
  [.launch Node.storedOrder .stored none,
    .turn (.stored, Node.storedOrder, .submitted Node.signedTransfer),
    .turn (.stored, Node.storedOrder, .network (.castVote (BftStateMachine.soloPrecommit 1)))]

/-- Saved, started, decided again, and killed; then started once more. -/
def soloLives : List ProcessEvent :=
  soloLife ++ [.shutdown .stored .stored] ++ soloLife ++
    [.kill, .launch Node.storedOrder .stored none]

theorem ledger_survives_restarts_solo : ∃ hist p v,
    Run (Process.step soloSite) (fun _ _ => True) emptySite hist p ∧ p.running = some v ∧
      (books soloSite hist).executed.length = 1 ∧
      v.node.stateDb.Same
        (soloSite.genesis.stateDb.executeAll (books soloSite hist).executed) := by
  obtain ⟨hist, p, hr, hsome, hlen⟩ : ∃ hist p,
      Run (Process.step soloSite) (fun _ _ => True) emptySite hist p ∧
        p.running.isSome = true ∧ (books soloSite hist).executed.length = 1 :=
    Run.exists_of_replay soloLives (by decide +kernel)
  obtain ⟨v, hv⟩ := Option.isSome_iff_exists.mp hsome
  exact ⟨hist, p, v, hr, hv, hlen,
    ((ledger_survives_restarts FileCrates.sample_reliable emptySite_fresh hr).2 v hv).1⟩

theorem genesis_nonce (genesis : GenesisConfig) (k : Bytes 32) :
    (genesis.stateDb.account k).nonce = 0 := by
  have hfund : ∀ (accounts : List GenesisAccount) (db : StateDb), (db.account k).nonce = 0 →
      ((fund db accounts).account k).nonce = 0 := by
    intro accounts
    induction accounts with
    | nil => exact fun db h => h
    | cons a accounts ih =>
      intro db h
      refine ih _ ?_
      by_cases hk : k = a.pubkey
      · rw [hk, StateDb.account_setAccount]
        rfl
      · rw [StateDb.account_setAccount_ne _ _ hk]
        exact h
  exact hfund _ _ rfl

/-- **Money and nonces survive.** If the genesis balances fit their word, a running validator has
exactly that supply, whatever lives came before; and no two successful transfers behind its accounts
have the same sender and nonce, so that none is executed again after a restart. -/
theorem restarts_keep_the_books (hF : site.files.Reliable) (hfresh : Fresh site p₀)
    (hr : Run (Process.step site) (fun _ _ => True) p₀ hist p)
    (hsupply : site.genesis.stateDb.supply < 2 ^ 64)
    (hlen : (books site hist).executed.length < 2 ^ 64) {v : ValidatorNode C}
    (hv : p.running = some v) :
    v.node.stateDb.supply = site.genesis.stateDb.supply ∧
      (StateDb.successful C site.genesis.stateDb (books site hist).executed).Pairwise
        (fun tx tx' => tx.sender = tx'.sender → tx.nonce < tx'.nonce) := by
  have hkept : Kept site (fun _ _ => True) (books site hist) p :=
    kept_of_run hF (fun _ _ _ _ _ _ _ => trivial) hfresh hr
  constructor
  · rw [(hkept.executed hv).supply, StateDb.supply_executeAll hsupply]
  · refine (StateDb.successful_ascending C fun k => ?_).2
    rw [genesis_nonce]
    simpa using hlen

theorem restarts_keep_the_books_solo : ∃ hist p v,
    Run (Process.step soloSite) (fun _ _ => True) emptySite hist p ∧ p.running = some v ∧
      (books soloSite hist).executed.length = 2 ∧ v.node.stateDb.supply = 100 := by
  obtain ⟨hist, p, hr, hsome, hlen⟩ : ∃ hist p,
      Run (Process.step soloSite) (fun _ _ => True) emptySite hist p ∧
        p.running.isSome = true ∧ (books soloSite hist).executed.length = 2 :=
    Run.exists_of_replay (soloLife ++ [.shutdown .stored .stored] ++ soloLife) (by decide +kernel)
  obtain ⟨v, hv⟩ := Option.isSome_iff_exists.mp hsome
  have hbooks := restarts_keep_the_books FileCrates.sample_reliable emptySite_fresh hr
    (by decide +kernel) (by rw [hlen]; decide) hv
  refine ⟨hist, p, v, hr, hv, hlen, hbooks.1.trans (by decide +kernel)⟩

/-- A peer announces a commit. -/
def announces : ProcessEvent → Bool
  | .turn (_, _, .network (.commitBlock _ _)) => true
  | _ => false

def NotAnnounced (_ : Process C) (e : ProcessEvent) : Prop := announces e = false

instance (p : Process C) (e : ProcessEvent) : Decidable (p.NotAnnounced e) :=
  inferInstanceAs (Decidable (_ = _))

/-- **The chain does not survive.** Unless commits are announced to it, a running validator has
decided the heights from zero on in this life, however much was executed in earlier ones. -/
theorem restarts_forget_the_chain (hF : site.files.Reliable) (hfresh : Fresh site p₀)
    (hr : Run (Process.step site) NotAnnounced p₀ hist p) {v : ValidatorNode C}
    (hv : p.running = some v) :
    (books site hist).life.map (fun c => c.1) =
        Node.heightsUpTo (books site hist).life.length ∧
      v.node.bft.height = ⟨UInt64.ofNat (books site hist).life.length⟩ ∧
      v.node.blockStore.length = (books site hist).life.length := by
  have hkept : Kept site (fun _ e => ∀ h x, e.2 ≠ .network (.commitBlock h x))
      (books site hist) p :=
    kept_of_run hF (fun p e v t hg _ he h x heq => by
      obtain ⟨o, env, event⟩ := t
      subst he heq
      cases hg) hfresh hr
  obtain ⟨base, -, n₀, inner, hinner, hlife, -, hheight, hserves⟩ := hkept.memory v hv
  obtain ⟨hnow, hheights⟩ := Node.heights_of_run (fun _ _ h x hg => hg h x) hheight hinner
  rw [← hlife]
  refine ⟨hheights, hnow, ?_⟩
  have hstore := congrArg List.length (Node.serves_of_run hserves hinner).store
  rwa [List.length_map, length_storedEntries] at hstore

/-- Two lives, one decision in the second: it is of height 0 again, over a ledger of two. -/
theorem restarts_forget_the_chain_solo : ∃ hist p v,
    Run (Process.step soloSite) NotAnnounced emptySite hist p ∧ p.running = some v ∧
      (books soloSite hist).executed.length = 2 ∧ v.node.blockStore.length = 1 := by
  obtain ⟨hist, p, hr, hsome, hlen, hlife⟩ : ∃ hist p,
      Run (Process.step soloSite) NotAnnounced emptySite hist p ∧ p.running.isSome = true ∧
        (books soloSite hist).executed.length = 2 ∧ (books soloSite hist).life.length = 1 :=
    Run.exists_of_replay (soloLife ++ [.shutdown .stored .stored] ++ soloLife) (by decide +kernel)
  obtain ⟨v, hv⟩ := Option.isSome_iff_exists.mp hsome
  have hchain := restarts_forget_the_chain FileCrates.sample_reliable emptySite_fresh hr hv
  exact ⟨hist, p, v, hr, hv, hlen, hchain.2.2.trans hlife⟩

end Process

end Trv1Chain
