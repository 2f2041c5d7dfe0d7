import Trv1Chain.Proof.StateRoot
import Trv1Chain.State.Files

/-!
# What is saved is loaded

Two maps lie between the accounts and the file, and a third between the file and the accounts. Each
step keeps the bindings: hex digits keep keys apart, a map is collected from entries with distinct
keys, and the entries are read back one by one. The orders of the three loops play no part.
-/

set_option autoImplicit false

namespace Trv1Chain

open Lib

/-- What is assumed of the crates: `hex` writes two lower-case digits for each byte and reads them
back, and `serde_json` writes text from which it reads the map it wrote. -/
structure FileCrates.Reliable (F : FileCrates) : Prop where
  hexEncode : ∀ l, F.hexEncode l = toHex l
  hexDecode : ∀ l, F.hexDecode (toHex l) = .ok l
  reads : ∀ l text, l.NodupKeys → F.toStringPretty l = .ok text →
    F.isUtf8 text = true ∧ ∃ m, F.fromStr text = .ok m ∧ ∀ k, m.lookup k = l.dlookup k

/-- The key is the hex form of 32 bytes. -/
def IsHexKey (t : Text) : Prop := ∃ k : Bytes 32, t = toHex k.toList

namespace StateDb

variable {F : FileCrates}

theorem toHex_key_inj {k k' : Bytes 32} (h : toHex k.toList = toHex k'.toList) : k = k' :=
  Bytes.toList_inj (toHex_inj h)

/-! ## Into the file -/

/-- Collecting entries with distinct keys under the hex forms of their keys. -/
theorem lookup_collected (hF : F.Reliable) {l : List (Sigma fun _ : Bytes 32 => AccountState)}
    (hl : l.NodupKeys) : ∀ (m : HashMap Text AccountState) (k : Bytes 32),
    (l.foldl (fun m e => m.insert (F.hexEncode e.1.toList) e.2) m).lookup (toHex k.toList) =
      (l.dlookup k).or (m.lookup (toHex k.toList)) := by
  induction l with
  | nil => intro m k; rfl
  | cons e l ih =>
    intro m k
    obtain ⟨hfresh, hl⟩ := List.nodupKeys_cons.mp hl
    rw [List.foldl_cons, ih hl, hF.hexEncode]
    by_cases hk : k = e.1
    · subst hk
      rw [List.dlookup_eq_none.mpr hfresh, List.dlookup_cons_eq, AList.lookup_insert]
      rfl
    · rw [AList.lookup_insert_ne fun heq => hk (toHex_key_inj heq),
        List.dlookup_cons_ne l ⟨e.1, e.2⟩ hk]

theorem isHexKey_collected (hF : F.Reliable) {l : List (Sigma fun _ : Bytes 32 => AccountState)} :
    ∀ {m : HashMap Text AccountState}, (∀ t ∈ m, IsHexKey t) →
    ∀ t ∈ l.foldl (fun m e => m.insert (F.hexEncode e.1.toList) e.2) m, IsHexKey t := by
  induction l with
  | nil => exact fun h => h
  | cons e l ih =>
    intro m h
    refine ih fun t ht => ?_
    rcases (AList.mem_insert m).mp ht with rfl | ht
    · exact ⟨e.1, hF.hexEncode _⟩
    · exact h t ht

theorem lookup_hexMap (hF : F.Reliable) (it : AccountOrder) (db : StateDb) (k : Bytes 32) :
    (hexMap F it db).lookup (toHex k.toList) = db.getAccount k := by
  have hperm := it.perm db.accounts.entries
  have hnodup := (List.perm_nodupKeys hperm).mpr db.accounts.nodupKeys
  unfold hexMap
  rw [lookup_collected hF hnodup, List.perm_dlookup k hnodup hperm, AList.lookup_empty,
    Option.or_none]
  rfl

theorem isHexKey_hexMap (hF : F.Reliable) (it : AccountOrder) (db : StateDb) :
    ∀ t ∈ hexMap F it db, IsHexKey t :=
  isHexKey_collected hF fun t ht => absurd ht (AList.notMem_empty t)

/-! ## Out of the file -/

/-- **The loop of `load_from_file`** takes every hex key, and none gets in another's way. -/
theorem loadEntries_ok (hF : F.Reliable) {l : List (Sigma fun _ : Text => AccountState)}
    (hkeys : ∀ e ∈ l, IsHexKey e.1) (hl : l.NodupKeys) :
    ∀ accounts, ∃ m, loadEntries F accounts l = .ok m ∧
      ∀ k, m.lookup k = (l.dlookup (toHex k.toList)).or (accounts.lookup k) := by
  induction l with
  | nil => exact fun accounts => ⟨accounts, rfl, fun _ => rfl⟩
  | cons e l ih =>
    intro accounts
    obtain ⟨⟨k₀, hk₀⟩, hkeys⟩ := List.forall_mem_cons.mp hkeys
    obtain ⟨hfresh, hl⟩ := List.nodupKeys_cons.mp hl
    obtain ⟨m, hm, hlookup⟩ := ih hkeys hl (accounts.insert k₀ e.2)
    refine ⟨m, ?_, fun k => ?_⟩
    · unfold loadEntries
      rw [hk₀, hF.hexDecode]
      dsimp only
      rw [dif_pos k₀.toList_length]
      exact hm
    · rw [hlookup]
      by_cases hk : k = k₀
      · subst hk
        rw [← hk₀, List.dlookup_eq_none.mpr hfresh, List.dlookup_cons_eq, AList.lookup_insert]
        rfl
      · have hne : toHex k.toList ≠ e.1 := fun heq => hk (toHex_key_inj (heq.trans hk₀))
        rw [AList.lookup_insert_ne hk, List.dlookup_cons_ne l ⟨e.1, e.2⟩ hne]

/-- **What is saved is loaded.** For any database, paths and orders, a file that `save_to_file` has
written loads, as a database with the same accounts and so with the same root. -/
theorem saved_state_loads (hF : F.Reliable) {it : AccountOrder} {itHex : TextOrder} {db : StateDb}
    {fs fs' : Storage.FileSystem} {path : Storage.Path}
    (hsave : db.saveToFile F it itHex fs path = .ok fs') (itLoad : TextOrder) :
    ∃ db', loadFromFile F itLoad fs' path = .ok db' ∧ db'.Same db ∧
      ∀ C it it', computeStateRoot C it db' = computeStateRoot C it' db := by
  have hperm := itHex.perm (hexMap F it db).entries
  have hnodup := (List.perm_nodupKeys hperm).mpr (hexMap F it db).nodupKeys
  unfold saveToFile at hsave
  cases hjson : F.toStringPretty (itHex.enum (hexMap F it db).entries) with
  | error e => rw [hjson] at hsave; cases hsave
  | ok json =>
    rw [hjson] at hsave
    cases hsave
    obtain ⟨hutf8, m, hm, hlookup⟩ := hF.reads _ json hnodup hjson
    have hsame : ∀ t, m.lookup t = (hexMap F it db).lookup t :=
      fun t => (hlookup t).trans (List.perm_dlookup t hnodup hperm)
    -- the map that was read has the keys of the map that was written
    have hpermLoad := itLoad.perm m.entries
    have hnodupLoad := (List.perm_nodupKeys hpermLoad).mpr m.nodupKeys
    have hkeys : ∀ e ∈ itLoad.enum m.entries, IsHexKey e.1 := by
      intro e he
      have hmem : m.lookup e.1 = some e.2 := AList.mem_lookup_iff.mpr (itLoad.mem_enum.mp he)
      rw [hsame] at hmem
      exact isHexKey_hexMap hF it db e.1 (AList.lookup_isSome.mp (by rw [hmem]; rfl))
    obtain ⟨accounts, haccounts, hloaded⟩ := loadEntries_ok hF hkeys hnodupLoad ∅
    have hdb : StateDb.Same ⟨accounts⟩ db := by
      intro k
      show accounts.lookup k = _
      rw [hloaded, List.perm_dlookup _ hnodupLoad hpermLoad, AList.lookup_empty, Option.or_none]
      exact (hsame _).trans (lookup_hexMap hF it db k)
    refine ⟨⟨accounts⟩, ?_, hdb, fun C => hdb.computeStateRoot C⟩
    unfold loadFromFile
    rw [AList.lookup_insert]
    dsimp only
    rw [if_neg (by rw [hutf8]; decide), hm]
    dsimp only
    rw [haccounts]

end StateDb

/-! ## An instance to evaluate at

JSON without white space, for keys without a quote in them; other maps are refused. -/

namespace FileCrates

/-- The value of a hex digit, of either case. -/
def hexValue (d : UInt8) : Option Nat :=
  if 48 ≤ d.toNat ∧ d.toNat < 58 then some (d.toNat - 48)
  else if 97 ≤ d.toNat ∧ d.toNat < 103 then some (d.toNat - 87)
  else if 65 ≤ d.toNat ∧ d.toNat < 71 then some (d.toNat - 55)
  else none

def readHex : Text → Option (List UInt8)
  | [] => some []
  | [_] => none
  | high :: low :: l => do
    let high ← hexValue high
    let low ← hexValue low
    let bytes ← readHex l
    some (UInt8.ofNat (16 * high + low) :: bytes)

theorem hexValue_hexDigit {x : Nat} (hx : x < 16) : hexValue (hexDigit x) = some x := by
  have hall : ∀ y : Fin 16, hexValue (hexDigit y) = some y.val := by decide
  exact hall ⟨x, hx⟩

theorem readHex_toHex (l : List UInt8) : readHex (toHex l) = some l := by
  induction l with
  | nil => rfl
  | cons b l ih =>
    have hb := b.toNat_lt
    have hbyte : UInt8.ofNat (16 * (b.toNat / 16) + b.toNat % 16) = b := by
      rw [Nat.div_add_mod, UInt8.ofNat_toNat]
    show readHex (hexDigit (b.toNat / 16) :: hexDigit (b.toNat % 16) :: toHex l) = _
    unfold readHex
    rw [hexValue_hexDigit (by omega), hexValue_hexDigit (by omega), ih]
    simp only [Option.bind_eq_bind, Option.bind_some, hbyte]

/-- A text up to a mark, and what comes after the mark. -/
def cut (t : UInt8) (l : Text) : Text × Text :=
  (l.takeWhile (· ≠ t), (l.dropWhile (· ≠ t)).drop 1)

theorem cut_append {t : UInt8} {a : Text} (h : t ∉ a) (l : Text) :
    cut t (a ++ t :: l) = (a, l) := by
  have hall : ∀ b ∈ a, decide (b ≠ t) = true := by
    intro b hb
    exact decide_eq_true fun heq => h (heq ▸ hb)
  unfold cut
  rw [List.takeWhile_append_of_pos hall, List.dropWhile_append_of_pos hall]
  simp

def entryText (e : Sigma fun _ : Text => AccountState) : Text :=
  34 :: (e.1 ++ 34 :: 58 :: Crates.sample.jsonAccount e.2)

/-- One entry, from after its opening quote. -/
def readEntry (l : Text) : (Sigma fun _ : Text => AccountState) × Text :=
  let (key, l) := cut 34 l
  let (balance, l) := cut 44 (l.drop 12)
  let (nonce, l) := cut 125 (l.drop 8)
  (⟨key, UInt64.ofNat (readDecimal balance), UInt64.ofNat (readDecimal nonce)⟩, l)

/-- The entries of an object, with the commas between them. -/
def readEntries : Nat → Text → List (Sigma fun _ : Text => AccountState)
  | fuel + 1, 34 :: l => (readEntry l).1 :: readEntries fuel (readEntry l).2
  | fuel + 1, 44 :: l => readEntries fuel l
  | _, _ => []

def sample : FileCrates where
  hexEncode := toHex
  hexDecode t := match readHex t with
    | some l => .ok l
    | none => .error "invalid hex"
  toStringPretty l :=
    if ∀ e ∈ l, 34 ∉ e.1 then .ok (Crates.jsonObject (l.map entryText))
    else .error "unsupported key"
  fromStr text := .ok (readEntries text.length (text.drop 1)).toAList
  isUtf8 _ := true
  notFound := "not found"
  notUtf8 := "not UTF-8"

theorem readEntry_eq {e : Sigma fun _ : Text => AccountState} (h : 34 ∉ e.1) (l : Text) :
    readEntry (e.1 ++ 34 :: 58 :: Crates.sample.jsonAccount e.2 ++ l) = (e, l) := by
  have hdigit : ∀ {t : UInt8} (x : UInt64), t.toNat < 48 ∨ 58 ≤ t.toNat →
      t ∉ decimal x.toNat := fun x ht => notMem_decimal ht _
  have hnumber : ∀ x : UInt64, UInt64.ofNat (readDecimal (decimal x.toNat)) = x := by
    intro x
    rw [readDecimal_decimal, UInt64.ofNat_toNat]
  rw [Crates.sample_rendersAccounts.eq]
  simp only [List.append_assoc, List.cons_append, List.nil_append]
  unfold readEntry
  rw [cut_append h]
  dsimp only
  have hskip : (58 :: (Crates.balanceText ++ (decimal e.2.balance.toNat ++ 44 ::
      (Crates.nonceText ++ (decimal e.2.nonce.toNat ++ 125 :: l))))).drop 12 =
      decimal e.2.balance.toNat ++ 44 :: (Crates.nonceText ++
        (decimal e.2.nonce.toNat ++ 125 :: l)) := rfl
  rw [hskip, cut_append (hdigit _ (by decide))]
  dsimp only
  have hskip' : (Crates.nonceText ++ (decimal e.2.nonce.toNat ++ 125 :: l)).drop 8 =
      decimal e.2.nonce.toNat ++ 125 :: l := rfl
  rw [hskip', cut_append (hdigit _ (by decide))]
  dsimp only
  rw [hnumber, hnumber]

/-- Two steps are fuel enough for an entry: one for it and one for the comma after it. -/
theorem readEntries_eq {l : List (Sigma fun _ : Text => AccountState)} :
    ∀ {fuel : Nat}, (∀ e ∈ l, 34 ∉ e.1) → 2 * l.length ≤ fuel →
    readEntries fuel (List.intercalate [44] (l.map entryText) ++ [125]) = l := by
  have hstep : ∀ {e : Sigma fun _ : Text => AccountState} (fuel : Nat) (rest : Text), 34 ∉ e.1 →
      readEntries (fuel + 1) (entryText e ++ rest) = e :: readEntries fuel rest := by
    intro e fuel rest hkey
    have hentry := readEntry_eq hkey rest
    unfold entryText
    rw [List.cons_append, readEntries, hentry]
  induction l with
  | nil =>
    intro fuel _ _
    cases fuel with
    | zero => rfl
    | succ fuel => rfl
  | cons e l ih =>
    intro fuel hkeys hfuel
    obtain ⟨hkey, hkeys⟩ := List.forall_mem_cons.mp hkeys
    rw [List.length_cons] at hfuel
    obtain ⟨fuel, rfl⟩ : ∃ n, fuel = n + 2 := ⟨fuel - 2, by omega⟩
    cases l with
    | nil =>
      rw [List.map_singleton, List.intercalate_singleton, hstep _ _ hkey]
      rfl
    | cons e' l =>
      rw [List.map_cons, List.map_cons, List.intercalate_cons_cons, List.append_assoc,
        List.append_assoc, hstep _ _ hkey]
      exact congrArg (e :: ·) (ih hkeys (by omega))

theorem two_mul_length_le (l : List (Sigma fun _ : Text => AccountState)) :
    2 * l.length ≤ (List.intercalate [44] (l.map entryText)).length := by
  have hentry : ∀ e, 2 ≤ (entryText e).length := by
    intro e
    simp only [entryText, List.length_cons, List.length_append]
    omega
  induction l with
  | nil => exact Nat.zero_le _
  | cons e l ih =>
    cases l with
    | nil =>
      rw [List.map_singleton, List.intercalate_singleton]
      exact hentry e
    | cons e' l =>
      have hfirst := hentry e
      simp only [List.map_cons, List.intercalate_cons_cons, List.length_append,
        List.length_cons] at ih ⊢
      omega

theorem sample_reliable : sample.Reliable where
  hexEncode _ := rfl
  hexDecode l := by
    show (match readHex (toHex l) with
      | some l => Except.ok l
      | none => .error "invalid hex") = .ok l
    rw [readHex_toHex]
  reads l text _ htext := by
    refine ⟨rfl, _, rfl, fun k => ?_⟩
    have htext : (if ∀ e ∈ l, 34 ∉ e.1 then Except.ok (Crates.jsonObject (l.map entryText))
        else .error "unsupported key") = .ok text := htext
    split at htext
    case isFalse => cases htext
    case isTrue hkeys =>
      cases htext
      have hfuel := two_mul_length_le l
      have hread : readEntries (Crates.jsonObject (l.map entryText)).length
          (List.intercalate [44] (l.map entryText) ++ [125]) = l := by
        apply readEntries_eq hkeys
        unfold Crates.jsonObject
        rw [List.length_cons, List.length_append]
        omega
      rw [AList.lookup_to_alist]
      exact congrArg (List.dlookup k) hread

end FileCrates

/-- Two accounts, saved and loaded: the file that was written can be read. -/
theorem StateDb.saved_state_loads_two :
    ∃ fs', (twoAccounts 1 2).saveToFile .sample .stored .stored ∅ [] = .ok fs' ∧
      ∃ db', loadFromFile .sample .stored fs' [] = .ok db' ∧ db'.Same (twoAccounts 1 2) ∧
        ∀ C it it', computeStateRoot C it db' = computeStateRoot C it' (twoAccounts 1 2) := by
  have hsave : ∃ fs', (twoAccounts 1 2).saveToFile .sample .stored .stored ∅ [] = .ok fs' :=
    ⟨_, rfl⟩
  obtain ⟨fs', hsave⟩ := hsave
  exact ⟨fs', hsave, saved_state_loads FileCrates.sample_reliable hsave .stored⟩

end Trv1Chain
