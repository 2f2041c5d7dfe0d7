import Trv1Chain.Lib.StableSort
import Trv1Chain.Proof.PoolIndex

/-!
# Who is served first

`get_pending_ordered` sorts by fee priority and breaks ties by a stamp, meant to be a time that only
goes up. The stamp is the number of pending transactions, which goes down with every removal. So a
transaction can get the stamp of one that is still waiting, and then the order of the two is the
order in which the map enumerates their senders; or a lower one, and then it overtakes.

The reference is the queue of arrivals, read off the calls alone. The list by sender is a part of
it in the same order (`Queued`), so transactions of one sender with one stamp still come out right,
because the sort is stable. For all others the stamps have to rise.
-/

set_option autoImplicit false

namespace Trv1Chain

open Lib

namespace TransactionPool

variable {C : Crates}

/-! ## The sorted list -/

instance : Std.Total before where
  total a b := by
    unfold before
    simp only [UInt64.lt_iff_toNat_lt, UInt64.le_iff_toNat_le, ← UInt64.toNat_inj]
    omega

instance : IsTrans PendingTransaction before where
  trans a b c := by
    unfold before
    simp only [UInt64.lt_iff_toNat_lt, UInt64.le_iff_toNat_le, ← UInt64.toNat_inj]
    omega

/-- The pool as a loop over its senders sees it. -/
def enumerated (it : PoolOrder) (pool : TransactionPool) : List PendingTransaction :=
  (it.enum pool.bySender.entries).flatMap (·.2)

/-- The whole sorted list; `get_pending_ordered` takes a first part of it. -/
def ordered (it : PoolOrder) (pool : TransactionPool) : List PendingTransaction :=
  (enumerated it pool).insertionSort before

theorem getPendingOrdered_eq (it : PoolOrder) (pool : TransactionPool) (maxCount : Nat) :
    pool.getPendingOrdered it maxCount =
      ((pool.ordered it).map PendingTransaction.tx).take maxCount := List.map_take

theorem enumerated_perm (it : PoolOrder) (pool : TransactionPool) :
    (pool.enumerated it).Perm pool.waiting := (it.perm _).flatMap_right _

theorem ordered_perm (it : PoolOrder) (pool : TransactionPool) :
    (pool.ordered it).Perm pool.waiting :=
  (List.perm_insertionSort _ _).trans (pool.enumerated_perm it)

theorem ordered_map_perm (it : PoolOrder) (pool : TransactionPool) :
    ((pool.ordered it).map PendingTransaction.tx).Perm pool.pending := by
  rw [pending_eq]
  exact (pool.ordered_perm it).map _

theorem pairwise_ordered (it : PoolOrder) (pool : TransactionPool) :
    (pool.ordered it).Pairwise before := List.pairwise_insertionSort _ _

theorem Represented.nodup_pending {pool : TransactionPool} (h : pool.Represented C) :
    pool.pending.Nodup := h.distinct.of_map _

theorem Represented.nodup_waiting {pool : TransactionPool} (h : pool.Represented C) :
    pool.waiting.Nodup := by
  have hnodup := h.nodup_pending
  rw [pending_eq] at hnodup
  exact hnodup.of_map _

theorem Represented.nodup_ordered {pool : TransactionPool} (h : pool.Represented C)
    (it : PoolOrder) : ((pool.ordered it).map PendingTransaction.tx).Nodup :=
  (ordered_map_perm it pool).nodup_iff.mpr h.nodup_pending

/-- What waits of one sender, as a part of what waits. -/
theorem Represented.senderTxs_eq {pool : TransactionPool} (h : pool.Represented C)
    (k : Bytes 32) : pool.senderTxs k = pool.waiting.filter fun ptx => ptx.tx.sender = k := by
  have hfiled := h.filed
  have hkeys := pool.bySender.nodupKeys
  unfold waiting
  show (pool.bySender.entries.dlookup k).getD [] = _
  revert hfiled hkeys
  induction pool.bySender.entries with
  | nil => intro _ _; rfl
  | cons e l ih =>
    intro hfiled hkeys
    obtain ⟨hfresh, hkeys⟩ := List.nodupKeys_cons.mp hkeys
    obtain ⟨hhead, htail⟩ := List.forall_mem_cons.mp hfiled
    have ih := ih htail hkeys
    rw [List.flatMap_cons, List.filter_append, ← ih]
    by_cases hk : k = e.1
    · -- the sender's own entry, and no second one
      subst hk
      have hnone : l.dlookup e.1 = none := List.dlookup_eq_none.mpr hfresh
      rw [List.dlookup_cons_eq, hnone, Option.getD_none, List.append_nil, Option.getD_some]
      exact (List.filter_eq_self.mpr fun ptx hptx => by simpa using hhead ptx hptx).symm
    · rw [List.dlookup_cons_ne l ⟨e.1, e.2⟩ hk]
      have hempty : (e.2.filter fun ptx => ptx.tx.sender = k) = [] := by
        refine List.filter_eq_nil_iff.mpr fun ptx hptx => ?_
        have hsender := hhead ptx hptx
        simpa [hsender] using Ne.symm hk
      rw [hempty, List.nil_append]

/-! ## The queue -/

variable {hist : List (Turn TransactionPool Call (Except MempoolError Unit))}
  {pool pool' : TransactionPool}

/-- The pending transactions in the order in which they were successfully added, by the calls and
their answers. The history is newest first. -/
def arrivals (C : Crates) :
    List (Turn TransactionPool Call (Except MempoolError Unit)) → List Transaction
  | [] => []
  | τ :: past => match τ.event with
    | .addTransaction tx => if τ.out = [.ok ()] then arrivals C past ++ [tx] else arrivals C past
    | .removeCommitted txHashes =>
      (arrivals C past).filter fun tx => !txHashes.contains (computeTxHash C tx)
    | .clear => []

/-- The same with the stamps they got. -/
def queue (C : Crates) :
    List (Turn TransactionPool Call (Except MempoolError Unit)) → List PendingTransaction
  | [] => []
  | τ :: past => match τ.event with
    | .addTransaction tx =>
      if τ.out = [.ok ()] then
        queue C past ++ [PendingTransaction.new tx (UInt64.ofNat τ.before.totalCount)]
      else queue C past
    | .removeCommitted txHashes => retainUncommitted C txHashes (queue C past)
    | .clear => []

theorem map_queue (C : Crates)
    (hist : List (Turn TransactionPool Call (Except MempoolError Unit))) :
    (queue C hist).map PendingTransaction.tx = arrivals C hist := by
  induction hist with
  | nil => rfl
  | cons τ past ih =>
    obtain ⟨before, event, after, out⟩ := τ
    cases event with
    | addTransaction tx =>
      unfold queue arrivals
      dsimp only
      split
      · rw [List.map_append, ih]
        rfl
      · exact ih
    | removeCommitted txHashes =>
      show ((queue C past).filter _).map _ = (arrivals C past).filter _
      rw [← ih, List.filter_map]
      rfl
    | clear => rfl

theorem feePriority_queue {ptx : PendingTransaction} (h : ptx ∈ queue C hist) :
    ptx.feePriority = ptx.tx.amount := by
  induction hist with
  | nil => cases h
  | cons τ past ih =>
    obtain ⟨before, event, after, out⟩ := τ
    cases event with
    | addTransaction tx =>
      unfold queue at h
      dsimp only at h
      split at h
      · rcases List.mem_append.mp h with h | h
        · exact ih h
        · rw [List.mem_singleton.mp h]
          rfl
      · exact ih h
    | removeCommitted txHashes => exact ih (List.mem_filter.mp h).1
    | clear => cases h

/-- The pool holds the queue, and each sender's list is in its order. -/
structure Queued (C : Crates) (hist : List (Turn TransactionPool Call (Except MempoolError Unit)))
    (pool : TransactionPool) : Prop where
  perm : pool.waiting.Perm (queue C hist)
  bySender : ∀ k, pool.senderTxs k = (queue C hist).filter fun ptx => ptx.tx.sender = k

theorem senderTxs_insert {k : Bytes 32} {txs : List PendingTransaction}
    (h : pool'.bySender = pool.bySender.insert k txs)
    (k' : Bytes 32) : pool'.senderTxs k' = if k' = k then txs else pool.senderTxs k' := by
  unfold senderTxs
  rw [h]
  split
  · rename_i hk
    rw [hk, AList.lookup_insert, Option.getD_some]
  · rename_i hk
    rw [AList.lookup_insert_ne hk]

theorem Queued.add {tx : Transaction} {r : TransactionPool × Except MempoolError Unit}
    (hq : Queued C hist pool) (hadds : Adds C pool tx r) :
    Queued C (⟨pool, .addTransaction tx, r.1, [r.2]⟩ :: hist) r.1 := by
  cases hadds with
  | refused e => exact ⟨hq.perm, hq.bySender⟩
  | limited _ =>
    have hsame : pool.bySender.insert tx.sender (pool.senderTxs tx.sender) =
        pool.bySender.insert tx.sender (pool.senderTxs tx.sender ++ []) := by rw [List.append_nil]
    refine ⟨(waiting_insert hsame).trans hq.perm, fun k => ?_⟩
    · rw [senderTxs_insert rfl k]
      split
      · rename_i hk
        rw [← hk]
        exact hq.bySender k
      · exact hq.bySender k
  | admitted _ _ _ _ _ =>
    refine ⟨?_, fun k => ?_⟩
    · exact (waiting_insert rfl).trans
        ((hq.perm.cons _).trans (List.perm_append_singleton _ _).symm)
    · rw [senderTxs_insert rfl k]
      show _ = (queue C hist ++ [PendingTransaction.new tx _]).filter _
      rw [List.filter_append, List.filter_singleton, ← hq.bySender k]
      by_cases hk : k = tx.sender
      · rw [if_pos hk, hk]
        simp [PendingTransaction.new]
      · rw [if_neg hk]
        simp [PendingTransaction.new, Ne.symm hk]

theorem Queued.step {c : Call} {out : List (Except MempoolError Unit)}
    (hq : Queued C hist pool) (hrep : pool.Represented C)
    (hs : step C pool c = some (pool', out)) : Queued C (⟨pool, c, pool', out⟩ :: hist) pool' := by
  have hrep' := hrep.step hs
  cases c with
  | addTransaction tx =>
    cases hs
    exact hq.add (addTransaction_adds C pool tx)
  | removeCommitted txHashes =>
    cases hs
    have hwaiting := waiting_removeCommitted C pool txHashes
    refine ⟨?_, fun k => ?_⟩
    · rw [hwaiting]
      exact hq.perm.filter _
    · rw [hrep'.senderTxs_eq, hwaiting]
      show ((pool.waiting.filter _).filter _) = ((queue C hist).filter _).filter _
      rw [List.filter_comm, ← hrep.senderTxs_eq, hq.bySender, List.filter_comm]
  | clear =>
    cases hs
    exact ⟨List.Perm.refl _, fun k => rfl⟩

theorem queued_of_run {config : MempoolConfig}
    (hr : Run (step C) (fun _ _ => True) (new config) hist pool) :
    pool.Represented C ∧ Queued C hist pool := by
  refine hr.invariant (I := fun hist pool => pool.Represented C ∧ Queued C hist pool)
    ⟨represented_new C config, List.Perm.refl _, fun _ => rfl⟩ ?_
  rintro hist pool c pool' out _ ⟨hrep, hq⟩ _ hs
  exact ⟨hrep.step hs, hq.step hrep hs⟩

/-! ## One state -/

/-- Decreasing priority. -/
def byPriority (a b : PendingTransaction) : Prop := b.feePriority ≤ a.feePriority

instance : DecidableRel byPriority := fun a b =>
  inferInstanceAs (Decidable (b.feePriority ≤ a.feePriority))

instance : Std.Total byPriority := ⟨fun a b => UInt64.le_total b.feePriority a.feePriority⟩

instance : IsTrans PendingTransaction byPriority := ⟨fun _ _ _ h h' => UInt64.le_trans h' h⟩

/-- **First come, first served**: the arrivals by decreasing amount, in a stable sort, are what
every call lists, whatever the enumeration of the senders. -/
def FirstCome (C : Crates) (hist : List (Turn TransactionPool Call (Except MempoolError Unit)))
    (pool : TransactionPool) : Prop :=
  ∀ (it : PoolOrder) (maxCount : Nat), pool.getPendingOrdered it maxCount =
    ((arrivals C hist).insertionSort fun a b => b.amount ≤ a.amount).take maxCount

/-- The later of two has the larger stamp, or one sender and one stamp. -/
def RisingStamps (a b : PendingTransaction) : Prop :=
  a.feePriority = b.feePriority →
    a.addedAt < b.addedAt ∨ a.tx.sender = b.tx.sender ∧ a.addedAt = b.addedAt

theorem map_sorted_queue (C : Crates)
    (hist : List (Turn TransactionPool Call (Except MempoolError Unit))) :
    ((queue C hist).insertionSort byPriority).map PendingTransaction.tx =
      (arrivals C hist).insertionSort fun a b => b.amount ≤ a.amount := by
  rw [← map_queue]
  refine List.map_insertionSort _ _ _ _ fun a ha b hb => ?_
  unfold byPriority
  rw [feePriority_queue ha, feePriority_queue hb]

theorem firstCome_iff_ordered : FirstCome C hist pool ↔
    ∀ it, (pool.ordered it).map PendingTransaction.tx =
      ((queue C hist).insertionSort byPriority).map PendingTransaction.tx := by
  unfold FirstCome
  rw [map_sorted_queue]
  constructor
  · intro h it
    -- a call for all of them
    have hall := h it (((pool.ordered it).map PendingTransaction.tx).length +
      ((arrivals C hist).insertionSort fun a b => b.amount ≤ a.amount).length)
    rw [getPendingOrdered_eq, List.take_of_length_le (Nat.le_add_right _ _),
      List.take_of_length_le (Nat.le_add_left _ _)] at hall
    exact hall
  · intro h it maxCount
    rw [getPendingOrdered_eq, h it]

/-- An enumeration that comes to `b`'s sender before `a`'s. -/
theorem exists_enumerated_pair {a b : PendingTransaction} (hrep : pool.Represented C)
    (ha : a ∈ pool.waiting) (hb : b ∈ pool.waiting) (hne : a.tx.sender ≠ b.tx.sender) :
    ∃ it, [b, a].Sublist (pool.enumerated it) := by
  obtain ⟨ea, hea, ha⟩ := List.mem_flatMap.mp ha
  obtain ⟨eb, heb, hb⟩ := List.mem_flatMap.mp hb
  obtain ⟨pre, post, hsplit⟩ := List.append_of_mem heb
  have hkeys : ea ≠ eb := by
    rintro rfl
    exact hne ((hrep.filed ea hea a ha).trans (hrep.filed ea hea b hb).symm)
  have hrest : ea ∈ pre ++ post := by
    rw [hsplit] at hea
    rcases List.mem_append.mp hea with h | h
    · exact List.mem_append_left _ h
    · exact List.mem_append_right _ ((List.mem_cons.mp h).resolve_left hkeys)
  have hperm : (eb :: (pre ++ post)).Perm pool.bySender.entries := by
    rw [hsplit]
    exact List.perm_middle.symm
  obtain ⟨it, hit⟩ := IterOrder.exists_enum hperm
  refine ⟨it, ?_⟩
  unfold enumerated
  rw [hit, List.flatMap_cons]
  exact (List.singleton_sublist.mpr hb).append
    (List.singleton_sublist.mpr (List.mem_flatMap.mpr ⟨ea, hrest, ha⟩))

theorem Queued.sublist_enumerated (hq : Queued C hist pool) {a b : PendingTransaction}
    (hpair : [a, b].Sublist (queue C hist)) (hsender : a.tx.sender = b.tx.sender)
    (it : PoolOrder) : [a, b].Sublist (pool.enumerated it) := by
  have hown : [a, b].Sublist (pool.senderTxs a.tx.sender) := by
    have hfilter := hpair.filter fun ptx => decide (ptx.tx.sender = a.tx.sender)
    rw [hq.bySender]
    simpa [hsender] using hfilter
  obtain ⟨txs, hmem, -⟩ := senderTxs_of_mem (hown.subset List.mem_cons_self)
  have htxs : pool.senderTxs a.tx.sender = txs := by
    unfold senderTxs
    rw [AList.mem_lookup_iff.mpr hmem]
    rfl
  obtain ⟨pre, post, hsplit⟩ := List.append_of_mem (it.mem_enum.mpr hmem)
  unfold enumerated
  rw [hsplit, List.flatMap_append, List.flatMap_cons]
  rw [htxs] at hown
  exact hown.trans ((List.sublist_append_left _ _).trans (List.sublist_append_right _ _))

theorem Queued.nodup (hq : Queued C hist pool) (hrep : pool.Represented C) :
    (queue C hist).Nodup := hq.perm.nodup_iff.mp hrep.nodup_waiting

theorem Queued.enumerated_perm (hq : Queued C hist pool) (it : PoolOrder) :
    (pool.enumerated it).Perm (queue C hist) := (pool.enumerated_perm it).trans hq.perm

/-- A later arrival that its stamp does not put behind is listed first in some enumeration. -/
theorem Queued.exists_overtaking (hq : Queued C hist pool) (hrep : pool.Represented C)
    {a b : PendingTransaction} (ha : a ∈ queue C hist) (hb : b ∈ queue C hist) (hne : a ≠ b)
    (hnot : ¬ RisingStamps a b) : ∃ it, [b, a].Sublist (pool.ordered it) := by
  unfold RisingStamps at hnot
  push Not at hnot
  obtain ⟨hprio, hlt, hstamp⟩ := hnot
  have hle := UInt64.not_lt.mp hlt
  by_cases hab : before a b
  · -- one stamp: two senders, in either order
    have heq : a.addedAt = b.addedAt := by
      rcases hab with hlt | ⟨-, hle'⟩
      · rw [hprio] at hlt
        exact absurd hlt (UInt64.lt_irrefl _)
      · exact UInt64.le_antisymm hle' hle
    obtain ⟨it, hit⟩ := exists_enumerated_pair hrep (hq.perm.mem_iff.mpr ha)
      (hq.perm.mem_iff.mpr hb) fun hsender => hstamp hsender heq
    exact ⟨it, List.pair_sublist_insertionSort (Or.inr ⟨hprio.symm, hle⟩) hit⟩
  · have hperm := hq.enumerated_perm IterOrder.stored
    refine ⟨IterOrder.stored, (pair_insertionSort_iff before ?_ ?_ ?_ (Ne.symm hne)).mpr
      (Or.inl hab)⟩
    · exact hperm.nodup_iff.mpr (hq.nodup hrep)
    · exact hperm.mem_iff.mpr hb
    · exact hperm.mem_iff.mpr ha

theorem Queued.risingStamps (hq : Queued C hist pool) (hrep : pool.Represented C)
    (h : FirstCome C hist pool) : (queue C hist).Pairwise RisingStamps := by
  rw [firstCome_iff_ordered] at h
  refine List.pairwise_iff_forall_sublist.mpr fun {a b} hab => ?_
  by_contra hnot
  obtain ⟨it, hswap⟩ := hq.exists_overtaking hrep (hab.subset (by simp)) (hab.subset (by simp))
    (ne_of_pair (hq.nodup hrep) hab) hnot
  -- the arrivals have `a` first
  have hprio : a.feePriority = b.feePriority := by
    unfold RisingStamps at hnot
    push Not at hnot
    exact hnot.1
  have hsorted := List.pair_sublist_insertionSort (r := byPriority)
    (UInt64.le_of_eq hprio.symm) hab
  refine not_pair_swap (hrep.nodup_ordered it) (hswap.map PendingTransaction.tx) ?_
  rw [h it]
  exact hsorted.map PendingTransaction.tx

theorem Queued.firstCome (hq : Queued C hist pool) (hrep : pool.Represented C)
    (h : (queue C hist).Pairwise RisingStamps) : FirstCome C hist pool := by
  rw [firstCome_iff_ordered]
  intro it
  have hperm := hq.enumerated_perm it
  have hnodup : (pool.ordered it).Nodup := (hrep.nodup_ordered it).of_map _
  refine congrArg _ (eq_of_pairs ?_ hnodup fun {x y} hxy => ?_)
  · exact (List.perm_insertionSort _ _).trans (hperm.trans (List.perm_insertionSort _ _).symm)
  have hmem : ∀ z ∈ [x, y], z ∈ queue C hist := fun z hz =>
    hperm.mem_iff.mp ((List.mem_insertionSort _).mp (hxy.subset hz))
  have hx := hmem x (by simp)
  have hy := hmem y (by simp)
  have hne := ne_of_pair hnodup hxy
  rw [pair_insertionSort_iff byPriority (hq.nodup hrep) hx hy hne]
  rcases List.pairwise_iff_forall_sublist.mp (pool.pairwise_ordered it) hxy with
    hlt | ⟨hprio, hle⟩
  · exact Or.inl (UInt64.not_le.mpr hlt)
  refine Or.inr ⟨UInt64.le_of_eq hprio.symm, (pair_or_pair hx hy hne).resolve_right fun hyx => ?_⟩
  -- had `y` arrived first, it would have the same stamp and sender, and the sort is stable
  rcases List.pairwise_iff_forall_sublist.mp h hyx hprio.symm with hlt | ⟨hsender, heq⟩
  · exact absurd hle (UInt64.not_le.mpr hlt)
  · have hback := List.pair_sublist_insertionSort (r := before)
      (Or.inr ⟨hprio.symm, UInt64.le_of_eq heq⟩) (hq.sublist_enumerated hyx hsender it)
    exact not_pair_swap hnodup hxy hback

/-! ## A run -/

/-- An addition that succeeds gets a stamp above that of every waiting transaction of the same
amount; of the same sender's it may be the same stamp. Other calls are free. -/
def StampsApart (C : Crates) (pool : TransactionPool) : Call → Prop
  | .addTransaction tx => (pool.addTransaction C tx).2 = .ok () → ∀ ptx ∈ pool.waiting,
      RisingStamps ptx (PendingTransaction.new tx (UInt64.ofNat pool.totalCount))
  | _ => True

theorem Queued.risingStamps_step {c : Call} {out : List (Except MempoolError Unit)}
    (hq : Queued C hist pool) (h : (queue C hist).Pairwise RisingStamps)
    (hs : TransactionPool.step C pool c = some (pool', out)) :
    (queue C (⟨pool, c, pool', out⟩ :: hist)).Pairwise RisingStamps ↔ pool.StampsApart C c := by
  cases c with
  | addTransaction tx =>
    cases hs
    unfold queue StampsApart
    dsimp only
    by_cases hok : (pool.addTransaction C tx).2 = .ok ()
    · rw [if_pos (by rw [hok]), List.pairwise_append]
      simp only [hok, true_implies, List.mem_singleton, forall_eq]
      constructor
      · rintro ⟨-, -, hlast⟩ ptx hptx
        exact hlast ptx (hq.perm.mem_iff.mp hptx)
      · intro hlast
        exact ⟨h, List.pairwise_singleton _ _, fun ptx hptx =>
          hlast ptx (hq.perm.mem_iff.mpr hptx)⟩
    · have hout : ¬ [(pool.addTransaction C tx).2] = [.ok ()] := fun heq =>
        hok (List.singleton_inj.mp heq)
      rw [if_neg hout]
      exact iff_of_true h fun hsucc => absurd hsucc hok
  | removeCommitted txHashes => exact iff_of_true (h.filter _) trivial
  | clear => exact iff_of_true List.Pairwise.nil trivial

/-- **Who is served first.** In a run of calls every state it passes lists the pending transactions
by decreasing amount and then by arrival, for every enumeration of the senders, exactly if every
addition gets a stamp apart. -/
theorem first_come_iff {config : MempoolConfig}
    {hist : List (Turn TransactionPool Call (Except MempoolError Unit))} {pool : TransactionPool}
    (hr : Run (step C) (fun _ _ => True) (new config) hist pool) :
    (∀ τ past, τ :: past <:+ hist → FirstCome C (τ :: past) τ.after) ↔
      ∀ τ ∈ hist, τ.before.StampsApart C τ.event := by
  refine hr.history_iff (I := FirstCome C) ?_ ?_
  · exact (queued_of_run .init).2.firstCome (represented_new C config) List.Pairwise.nil
  · intro hist pool c pool' out hrun hfirst hs
    obtain ⟨hrep, hq⟩ := queued_of_run hrun
    have hrep' := hrep.step hs
    have hq' := hq.step hrep hs
    rw [← hq.risingStamps_step (hq.risingStamps hrep hfirst) hs]
    exact ⟨hq'.risingStamps hrep', hq'.firstCome hrep'⟩

instance (a b : PendingTransaction) : Decidable (RisingStamps a b) :=
  inferInstanceAs (Decidable (_ → _ ∨ _ ∧ _))

instance (C : Crates) (pool : TransactionPool) : ∀ c, Decidable (pool.StampsApart C c)
  | .addTransaction _ => inferInstanceAs (Decidable (_ → ∀ _ ∈ pool.waiting, _))
  | .removeCommitted _ => isTrue trivial
  | .clear => isTrue trivial

/-- A signed payment to key `6`. -/
def signedPayment (sender : UInt8) (amount nonce : UInt64) : Transaction :=
  let tx : Transaction := ⟨Crates.sampleKey sender, Crates.sampleKey 6, amount, nonce, [], []⟩
  { tx with signature := (Crates.sample.sign tx.sender
      (buildSigningMessage Crates.sample tx).toList).toList }

def payment (sender : UInt8) : Transaction := signedPayment sender 10 0

def removal (senders : List UInt8) : Call :=
  .removeCommitted (senders.map fun sender => computeTxHash Crates.sample (payment sender))

/-- Two payments, the removal of the later one, and a third. -/
def servedCalls : List Call :=
  [.addTransaction (payment 1), .addTransaction (payment 2), removal [2],
    .addTransaction (payment 3)]

theorem first_come_iff_served :
    ∃ hist pool, Run (step Crates.sample) (fun _ _ => True) (new MempoolConfig.default) hist pool ∧
      arrivals Crates.sample hist = [payment 1, payment 3] ∧
      ∀ τ past, τ :: past <:+ hist → FirstCome Crates.sample (τ :: past) τ.after := by
  obtain ⟨hist, pool, hr, harrivals, hapart⟩ : ∃ hist pool,
      Run (step Crates.sample) (fun _ _ => True) (new MempoolConfig.default) hist pool ∧
        arrivals Crates.sample hist = [payment 1, payment 3] ∧
        ∀ τ ∈ hist, τ.before.StampsApart Crates.sample τ.event :=
    Run.exists_of_replay servedCalls (by decide +kernel)
  exact ⟨hist, pool, hr, harrivals, (first_come_iff hr).mpr hapart⟩

/-- Three payments, the removal of the first two, and a fourth. -/
def overtakenCalls : List Call :=
  [.addTransaction (payment 1), .addTransaction (payment 2), .addTransaction (payment 3),
    removal [1, 2], .addTransaction (payment 4)]

/-- **The fourth payment overtakes the third.** It comes when one transaction is pending and is
stamped 1; the third came when two were. -/
theorem fourth_overtakes :
    ∃ hist pool, Run (step Crates.sample) (fun _ _ => True) (new MempoolConfig.default) hist pool ∧
      arrivals Crates.sample hist = [payment 3, payment 4] ∧
      pool.getPendingOrdered IterOrder.stored 10 = [payment 4, payment 3] ∧
      ¬ FirstCome Crates.sample hist pool := by
  obtain ⟨hist, pool, hr, harrivals, hpending⟩ : ∃ hist pool,
      Run (step Crates.sample) (fun _ _ => True) (new MempoolConfig.default) hist pool ∧
        arrivals Crates.sample hist = [payment 3, payment 4] ∧
        pool.getPendingOrdered IterOrder.stored 10 = [payment 4, payment 3] :=
    Run.exists_of_replay overtakenCalls (by decide +kernel)
  refine ⟨hist, pool, hr, harrivals, hpending, fun hfirst => ?_⟩
  have hlisted := hfirst IterOrder.stored 10
  rw [hpending, harrivals] at hlisted
  exact absurd hlisted (by decide +kernel)

end TransactionPool

end Trv1Chain
