import Trv1Chain.Proof.Replica

/-!
# How the pool keeps what it knows

The pool has the same transactions in three places: the lists by sender, the set of known hashes,
and the counter. `Represented` says that the three agree and that the limits hold, and it is an
invariant of every pool: an addition moves all three by one transaction or none, and a removal
counts what it drops, so the counter cannot pass zero.
-/

set_option autoImplicit false

namespace Trv1Chain

open Lib

namespace TransactionPool

variable {C : Crates}

/-- The three structures agree, and every entry is as an admission leaves it. -/
structure Represented (C : Crates) (pool : TransactionPool) : Prop where
  counted : pool.totalCount = (pool.bySender.values.map List.length).sum
  known_card : pool.knownHashes.card = pool.totalCount
  known : ∀ h, h ∈ pool.knownHashes ↔ ∃ tx ∈ pool.pending, computeTxHash C tx = h
  distinct : (pool.pending.map (computeTxHash C)).Nodup
  filed : ∀ e ∈ pool.bySender.entries, ∀ ptx ∈ e.2, ptx.tx.sender = e.1
  verified : ∀ tx ∈ pool.pending, verifySignature C tx = .ok ()
  nonzero : ∀ tx ∈ pool.pending, tx.sender ≠ Bytes.fill 32 0
  size : pool.totalCount ≤ pool.config.maxSize
  share : ∀ e ∈ pool.bySender.entries, e.2.length ≤ pool.config.maxTxPerAccount

theorem length_pending (pool : TransactionPool) :
    pool.pending.length = (pool.bySender.values.map List.length).sum := by
  unfold pending HashMap.values
  rw [List.length_flatMap, List.map_map]
  simp only [List.length_map]
  rfl

/-- The hashes and the counter follow from the list of what is pending. -/
theorem represented_of {pool : TransactionPool}
    (counted : pool.totalCount = pool.pending.length)
    (known : pool.knownHashes = (pool.pending.map (computeTxHash C)).toFinset)
    (distinct : (pool.pending.map (computeTxHash C)).Nodup)
    (filed : ∀ e ∈ pool.bySender.entries, ∀ ptx ∈ e.2, ptx.tx.sender = e.1)
    (verified : ∀ tx ∈ pool.pending, verifySignature C tx = .ok ())
    (nonzero : ∀ tx ∈ pool.pending, tx.sender ≠ Bytes.fill 32 0)
    (size : pool.totalCount ≤ pool.config.maxSize)
    (share : ∀ e ∈ pool.bySender.entries, e.2.length ≤ pool.config.maxTxPerAccount) :
    pool.Represented C where
  counted := by rw [counted, length_pending]
  known_card := by rw [known, List.toFinset_card_of_nodup distinct, List.length_map, counted]
  known h := by rw [known, List.mem_toFinset, List.mem_map]
  distinct := distinct
  filed := filed
  verified := verified
  nonzero := nonzero
  size := size
  share := share

theorem Represented.counted_pending {pool : TransactionPool} (h : pool.Represented C) :
    pool.totalCount = pool.pending.length := by
  rw [h.counted, length_pending]

theorem Represented.knownHashes {pool : TransactionPool} (h : pool.Represented C) :
    pool.knownHashes = (pool.pending.map (computeTxHash C)).toFinset := by
  ext x
  rw [h.known, List.mem_toFinset, List.mem_map]

theorem represented_new (C : Crates) (config : MempoolConfig) : (new config).Represented C := by
  refine represented_of rfl rfl List.nodup_nil ?_ ?_ ?_ (Nat.zero_le _) ?_
  all_goals simp [new, pending]

theorem represented_clear (C : Crates) (pool : TransactionPool) : pool.clear.Represented C := by
  have hnew := represented_new C pool.config
  exact ⟨hnew.counted, hnew.known_card, hnew.known, hnew.distinct, hnew.filed, hnew.verified,
    hnew.nonzero, hnew.size, hnew.share⟩

/-! ## An addition -/

/-- A sender's list grown by `more` adds just that to what is waiting. -/
theorem waiting_insert {pool pool' : TransactionPool} {k : Bytes 32}
    {more : List PendingTransaction}
    (h : pool'.bySender = pool.bySender.insert k (pool.senderTxs k ++ more)) :
    pool'.waiting.Perm (more ++ pool.waiting) := by
  have hsplit := HashMap.flatMap_erase (fun _ txs => txs) pool.bySender k
  have hold : ((pool.bySender.lookup k).elim [] fun txs => txs) = pool.senderTxs k := by
    unfold senderTxs
    cases pool.bySender.lookup k <;> rfl
  rw [hold] at hsplit
  unfold waiting
  rw [h]
  show ((pool.senderTxs k ++ more) ++ (pool.bySender.erase k).entries.flatMap (·.2)).Perm _
  refine (List.perm_append_comm.append_right _).trans ?_
  rw [List.append_assoc]
  exact hsplit.symm.append_left _

theorem pending_insert {pool pool' : TransactionPool} {k : Bytes 32}
    {more : List PendingTransaction}
    (h : pool'.bySender = pool.bySender.insert k (pool.senderTxs k ++ more)) :
    pool'.pending.Perm (more.map PendingTransaction.tx ++ pool.pending) := by
  rw [pending_eq, pending_eq, ← List.map_append]
  exact (waiting_insert h).map _

theorem length_senderTxs_le {pool : TransactionPool} (h : pool.Represented C) (k : Bytes 32) :
    (pool.senderTxs k).length ≤ pool.config.maxTxPerAccount := by
  unfold senderTxs
  cases hl : pool.bySender.lookup k with
  | none => exact Nat.zero_le _
  | some txs => exact h.share ⟨k, txs⟩ (AList.mem_lookup_iff.mp hl)

theorem nonzero_of_valid {tx : Transaction} (h : validateTransaction tx = .ok ()) :
    tx.sender ≠ Bytes.fill 32 0 := by
  intro hzero
  unfold validateTransaction at h
  rw [if_pos hzero] at h
  cases h

/-- **One sender's list grows by `more`**, which the counter and the known hashes follow. -/
theorem Represented.grow {pool pool' : TransactionPool} (h : pool.Represented C) (k : Bytes 32)
    (more : List PendingTransaction) (hconfig : pool'.config = pool.config)
    (hlist : pool'.bySender = pool.bySender.insert k (pool.senderTxs k ++ more))
    (hcount : pool'.totalCount = more.length + pool.totalCount)
    (hknown : ∀ x, x ∈ pool'.knownHashes ↔
      x ∈ more.map (fun ptx => computeTxHash C ptx.tx) ∨ x ∈ pool.knownHashes)
    (hdistinct : ((more.map PendingTransaction.tx ++ pool.pending).map (computeTxHash C)).Nodup)
    (hmore : ∀ ptx ∈ more, ptx.tx.sender = k ∧ verifySignature C ptx.tx = .ok () ∧
      ptx.tx.sender ≠ Bytes.fill 32 0)
    (hsize : pool'.totalCount ≤ pool.config.maxSize)
    (hshare : (pool.senderTxs k ++ more).length ≤ pool.config.maxTxPerAccount) :
    pool'.Represented C := by
  have hperm := pending_insert hlist
  have hpending : ∀ {tx}, tx ∈ pool'.pending →
      (∃ ptx ∈ more, ptx.tx = tx) ∨ tx ∈ pool.pending := by
    intro tx htx
    exact (List.mem_append.mp (hperm.mem_iff.mp htx)).imp_left List.mem_map.mp
  refine represented_of ?_ ?_ ((hperm.map _).nodup_iff.mpr hdistinct) ?_ ?_ ?_ ?_ ?_
  · rw [hcount, h.counted_pending, hperm.length_eq, List.length_append, List.length_map]
  · ext x
    rw [hknown, List.toFinset_eq_of_perm _ _ (hperm.map _), List.mem_toFinset, List.map_append,
      List.mem_append, List.map_map, h.knownHashes, List.mem_toFinset]
    rfl
  · intro e he ptx hptx
    rw [hlist] at he
    rcases HashMap.mem_insert he with rfl | hold
    · rcases List.mem_append.mp hptx with hptx | hptx
      · obtain ⟨txs, hmem, hptx⟩ := senderTxs_of_mem hptx
        exact h.filed _ hmem ptx hptx
      · exact (hmore ptx hptx).1
    · exact h.filed e hold ptx hptx
  · intro tx htx
    rcases hpending htx with ⟨ptx, hptx, rfl⟩ | hold
    · exact (hmore ptx hptx).2.1
    · exact h.verified tx hold
  · intro tx htx
    rcases hpending htx with ⟨ptx, hptx, rfl⟩ | hold
    · exact (hmore ptx hptx).2.2
    · exact h.nonzero tx hold
  · rw [hconfig]
    exact hsize
  · intro e he
    rw [hlist] at he
    rw [hconfig]
    rcases HashMap.mem_insert he with rfl | hold
    · exact hshare
    · exact h.share e hold

theorem Represented.addTransaction {pool : TransactionPool} (h : pool.Represented C)
    (tx : Transaction) : (pool.addTransaction C tx).1.Represented C := by
  have hadds := addTransaction_adds C pool tx
  generalize pool.addTransaction C tx = r at hadds
  cases hadds with
  | refused e => exact h
  | limited hfull =>
    refine h.grow tx.sender [] rfl ?_ (Nat.zero_add _).symm ?_ h.distinct ?_
      h.size ?_
    · rw [List.append_nil]
    · simp
    · simp
    · rw [List.append_nil]
      exact length_senderTxs_le h tx.sender
  | admitted hval hver hroom hnew hshare =>
    refine h.grow tx.sender [PendingTransaction.new tx (UInt64.ofNat pool.totalCount)] rfl rfl
      (Nat.add_comm _ _) ?_ ?_ ?_ hroom ?_
    · intro x
      rw [List.map_singleton, List.mem_singleton]
      exact Finset.mem_insert
    · rw [h.knownHashes, List.mem_toFinset] at hnew
      exact List.nodup_cons.mpr ⟨hnew, h.distinct⟩
    · intro ptx hptx
      rw [List.mem_singleton.mp hptx]
      exact ⟨rfl, hver, nonzero_of_valid hval⟩
    · rw [List.length_append]
      exact hshare

/-! ## A removal -/

theorem length_filter_split {α : Type} (p : α → Bool) (l : List α) :
    l.length - (l.length - (l.filter p).length) = (l.filter p).length := by
  have := List.length_filter_le p l
  omega

/-- What a removal counts as dropped is what it drops. -/
theorem totalCount_removeCommitted {pool : TransactionPool} (h : pool.Represented C)
    (hashes : List (Bytes 32)) :
    (pool.removeCommitted C hashes).totalCount =
      (pool.removeCommitted C hashes).pending.length := by
  have hkept : ((pool.bySender.mapValues (retainUncommitted C hashes)).values.map
      List.length).sum = (pool.removeCommitted C hashes).pending.length := by
    rw [length_pending]
    unfold removeCommitted HashMap.retain HashMap.values
    dsimp only
    induction (pool.bySender.mapValues (retainUncommitted C hashes)).entries with
    | nil => rfl
    | cons e l ih =>
      rw [List.filter_cons]
      cases he : e.2 with
      | nil => simpa [he] using ih
      | cons ptx txs => simpa [he] using ih
  show pool.totalCount - ((pool.bySender.values.map List.length).sum - _) = _
  rw [hkept, ← length_pending, h.counted_pending, pending_removeCommitted]
  exact length_filter_split _ _

theorem Represented.removeCommitted {pool : TransactionPool} (h : pool.Represented C)
    (hashes : List (Bytes 32)) : (pool.removeCommitted C hashes).Represented C := by
  have hsub : (pool.removeCommitted C hashes).pending.Sublist pool.pending := by
    rw [pending_removeCommitted]
    exact List.filter_sublist
  -- an entry that stays is an old one, thinned out
  have hentry : ∀ e ∈ (pool.removeCommitted C hashes).bySender.entries,
      ∃ e' ∈ pool.bySender.entries, e.1 = e'.1 ∧ e.2.Sublist e'.2 := by
    intro e he
    obtain ⟨e', he', rfl⟩ := List.mem_map.mp (List.mem_filter.mp he).1
    exact ⟨e', he', rfl, List.filter_sublist⟩
  refine represented_of (totalCount_removeCommitted h hashes) ?_ (h.distinct.sublist (hsub.map _))
    ?_ (fun tx htx => h.verified tx (hsub.subset htx))
    (fun tx htx => h.nonzero tx (hsub.subset htx)) ?_ ?_
  · ext x
    show x ∈ pool.knownHashes \ hashes.toFinset ↔ _
    rw [Finset.mem_sdiff, List.mem_toFinset, List.mem_toFinset, h.known, List.mem_map,
      pending_removeCommitted]
    constructor
    · rintro ⟨⟨tx, htx, rfl⟩, hx⟩
      exact ⟨tx, List.mem_filter.mpr ⟨htx, by simpa using hx⟩, rfl⟩
    · rintro ⟨tx, htx, rfl⟩
      obtain ⟨htx, hx⟩ := List.mem_filter.mp htx
      exact ⟨⟨tx, htx, rfl⟩, by simpa using hx⟩
  · intro e he ptx hptx
    obtain ⟨e', he', hkey, hthin⟩ := hentry e he
    rw [hkey]
    exact h.filed e' he' ptx (hthin.subset hptx)
  · exact (Nat.sub_le _ _).trans h.size
  · intro e he
    obtain ⟨e', he', -, hthin⟩ := hentry e he
    exact hthin.length_le.trans (h.share e' he')

/-! ## Any sequence of calls -/

inductive Call where
  | addTransaction (tx : Transaction)
  | removeCommitted (txHashes : List (Bytes 32))
  | clear

/-- The pool as a machine that answers each addition with its result. -/
def step (C : Crates) (pool : TransactionPool) :
    Call → Option (TransactionPool × List (Except MempoolError Unit))
  | .addTransaction tx =>
    some ((pool.addTransaction C tx).1, [(pool.addTransaction C tx).2])
  | .removeCommitted txHashes => some (pool.removeCommitted C txHashes, [])
  | .clear => some (pool.clear, [])

theorem Represented.step {pool pool' : TransactionPool} (h : pool.Represented C) {c : Call}
    {out : List (Except MempoolError Unit)} (hs : step C pool c = some (pool', out)) :
    pool'.Represented C := by
  cases c with
  | addTransaction tx => cases hs; exact h.addTransaction tx
  | removeCommitted txHashes => cases hs; exact h.removeCommitted txHashes
  | clear => cases hs; exact represented_clear C pool

/-- **The pool's representation.** Whatever is added, removed and cleared, on a pool of any
configuration, the counter, the known hashes and the lists by sender agree, every pending
transaction was verified and stands under its sender, and the two limits hold. -/
theorem pool_represented {config : MempoolConfig}
    {hist : List (Turn TransactionPool Call (Except MempoolError Unit))} {pool : TransactionPool}
    (hr : Run (step C) (fun _ _ => True) (new config) hist pool) : pool.Represented C :=
  hr.invariant (I := fun _ pool => pool.Represented C) (represented_new C config)
    fun _ ih _ hs => ih.step hs

/-- A payment twice, a second sender, and the removal of the first payment by its hash, of a hash
nobody has, and of the first again. -/
def removalCalls : List Call :=
  [.addTransaction Node.signedTransfer, .addTransaction Node.signedTransfer,
    .addTransaction Node.unsignedTransfer,
    .removeCommitted [computeTxHash Crates.sample Node.signedTransfer, Bytes.fill 32 9,
      computeTxHash Crates.sample Node.signedTransfer],
    .addTransaction Node.signedTransfer]

theorem pool_represented_removal :
    ∃ hist pool, Run (step Crates.sample) (fun _ _ => True) (new ⟨2, 1⟩) hist pool ∧
      chronicle hist = [.ok (), .error .duplicateTransaction,
        .error (.invalidTransaction "signature cannot be empty"), .ok ()] ∧
      pool.totalCount = 1 ∧ pool.Represented Crates.sample := by
  obtain ⟨hist, pool, hr, hanswers, hcount⟩ : ∃ hist pool,
      Run (step Crates.sample) (fun _ _ => True) (new ⟨2, 1⟩) hist pool ∧
        chronicle hist = [.ok (), .error .duplicateTransaction,
          .error (.invalidTransaction "signature cannot be empty"), .ok ()] ∧
        pool.totalCount = 1 :=
    Run.exists_of_replay removalCalls (by decide +kernel)
  exact ⟨hist, pool, hr, hanswers, hcount, pool_represented hr⟩

end TransactionPool

end Trv1Chain
