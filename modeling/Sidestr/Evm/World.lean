/-
# The accounts of the EVM

The world the EVM rule keeps beside the UTXO set (`world.rs`): accounts by
address and the code they hold. An account is written in three ways: a
deposit credits it (`credit`), a withdrawal empties it and keeps it
(`zeroBalance`), and the changes of an executed transaction are folded in
(`commit`), where what the transaction destroyed or left empty is removed.

A transaction's changes are what the EVM hands back: a hash map by address,
here a list in the order it is iterated, no address twice.

Key definitions: `Account`, `World`, `ChangeSet`, `World.commit`, `World.total`.
Key theorems: `World.total_credit_le`, `World.total_zeroBalance`,
`World.total_commit`.
-/
import Sidestr.Core.Tx
import Sidestr.Lib.Map

namespace Sidestr

namespace Evm

/-- A 20-byte address. -/
abbrev Address := BitVec 160

/-- The hash of no code. -/
def keccakEmpty : Hash256 := 0xc5d2460186f7233c927e7db2dcc703c0e500b653ca82273b7bfad8045d85a470#256

/-- One account. The default is a new one: no nonce, no balance, no code, no storage. -/
structure Account where
  nonce : ℕ := 0
  /-- In wei. -/
  balance : ℕ := 0
  codeHash : Hash256 := keccakEmpty
  /-- Without zero values. -/
  storage : Map ℕ ℕ := ∅
  deriving DecidableEq

/-- The accounts and the code they hold. -/
structure World where
  accounts : Map Address Account := ∅
  code : Map Hash256 Bytes := ∅
  deriving DecidableEq

/-- What a transaction leaves of an account it loaded. -/
structure AccountChange where
  touched : Bool
  selfdestructed : Bool
  created : Bool
  nonce : ℕ
  balance : ℕ
  codeHash : Hash256
  code : Option Bytes
  /-- The slots it loaded with their present values. -/
  storage : List (ℕ × ℕ)

/-- No nonce, no balance, no code. -/
def AccountChange.isEmpty (c : AccountChange) : Bool :=
  (c.codeHash == keccakEmpty || c.codeHash == 0) && c.balance == 0 && c.nonce == 0

/-- A transaction's changes, by address. -/
structure ChangeSet where
  entries : List (Address × AccountChange)
  nodup : (entries.map Prod.fst).Nodup

namespace World

/-- Add `wei` to an account, creating it; the sum stops at the largest value. -/
def credit (w : World) (address : Address) (wei : ℕ) : World :=
  let a := (w.accounts.lookup address).getD {}
  { w with accounts := w.accounts.insert address { a with balance := Word.satAdd 256 a.balance wei } }

/-- Set an existing account's balance to zero, keeping the account. -/
def zeroBalance (w : World) (address : Address) : World :=
  match w.accounts.lookup address with
  | some a => { w with accounts := w.accounts.insert address { a with balance := 0 } }
  | none => w

/-- A storage with the slots of a change written: a zero removes its slot. -/
def writeSlots (slots : List (ℕ × ℕ)) (storage : Map ℕ ℕ) : Map ℕ ℕ :=
  slots.foldl (fun m kv => if kv.2 = 0 then m.erase kv.1 else m.insert kv.1 kv.2) storage

/-- The account a change leaves: a created one starts with empty storage. -/
def changed (w : World) (address : Address) (c : AccountChange) : Account :=
  let entry := (w.accounts.lookup address).getD {}
  ⟨c.nonce, c.balance, c.codeHash, writeSlots c.storage (if c.created then ∅ else entry.storage)⟩

/-- The code map with a change's code, unless its hash is held already. -/
def withCode (w : World) (c : AccountChange) : Map Hash256 Bytes :=
  match c.code with
  | some code =>
    if c.codeHash ≠ keccakEmpty ∧ w.code.lookup c.codeHash = none then w.code.insert c.codeHash code
    else w.code
  | none => w.code

/-- Fold one account's change in: it is as it was when the transaction did not
touch it, and gone when it destroyed it or left it empty. -/
def commitOne (w : World) (change : Address × AccountChange) : World :=
  let (address, c) := change
  if !c.touched then w
  else if c.selfdestructed || c.isEmpty then { w with accounts := w.accounts.erase address }
  else ⟨w.accounts.insert address (w.changed address c), w.withCode c⟩

/-- Fold a transaction's changes in. -/
def commit (w : World) (changes : ChangeSet) : World := changes.entries.foldl commitOne w

/-! ### Balances -/

/-- The balances of all accounts. -/
def total (w : World) : ℕ := Map.total (fun _ a => a.balance) w.accounts

/-- An account's balance; zero for none. -/
def balance (w : World) (address : Address) : ℕ := Map.at' (fun _ a => a.balance) w.accounts address

variable (w : World) (address : Address)

theorem balance_eq : w.balance address = ((w.accounts.lookup address).getD {}).balance := by
  unfold balance Map.at'
  cases w.accounts.lookup address <;> rfl

theorem balance_le_total : w.balance address ≤ w.total := Map.at'_le_total

/-- A credit adds at most its wei. -/
theorem total_credit_le (wei : ℕ) : (w.credit address wei).total ≤ w.total + wei := by
  have h := Map.total_insert (f := fun _ a => a.balance) (m := w.accounts) (k := address)
    (v := { (w.accounts.lookup address).getD {} with
      balance := Word.satAdd 256 ((w.accounts.lookup address).getD {}).balance wei })
  have hb := w.balance_eq address
  have hs := Word.satAdd_le_add (w := 256) ((w.accounts.lookup address).getD {}).balance wei
  unfold balance at hb
  unfold total credit
  dsimp only at h ⊢
  omega

/-- Emptying an account takes its balance off the total. -/
theorem total_zeroBalance : (w.zeroBalance address).total + w.balance address = w.total := by
  unfold zeroBalance balance
  cases h : w.accounts.lookup address with
  | none =>
    rw [Map.at'_of_none h]
    rfl
  | some a =>
    have ht := Map.total_insert (f := fun _ a => a.balance) (m := w.accounts) (k := address)
      (v := { a with balance := 0 })
    unfold total
    dsimp only at ht ⊢
    omega

/-- One account's change: its balance is replaced by at most the one it was left with. -/
theorem total_commitOne (c : AccountChange) :
    (w.commitOne (address, c)).total + (if c.touched then w.balance address else 0) ≤
      w.total + if c.touched then c.balance else 0 := by
  cases ht : c.touched with
  | false => simp [commitOne, ht]
  | true =>
    by_cases hgone : (c.selfdestructed || c.isEmpty) = true
    · have h := Map.total_erase (f := fun _ a => a.balance) (m := w.accounts) (k := address)
      simp only [commitOne, ht, hgone, total, balance, Bool.not_true, Bool.false_eq_true, if_false,
        if_true]
      omega
    · have h := Map.total_insert (f := fun _ a => a.balance) (m := w.accounts) (k := address)
        (v := w.changed address c)
      have hc : (w.changed address c).balance = c.balance := rfl
      simp only [commitOne, ht, hgone, total, balance, Bool.not_true, Bool.false_eq_true, if_false,
        if_true]
      omega

/-- A change leaves every other account. -/
theorem balance_commitOne_of_ne {a b : Address} (h : b ≠ a) (c : AccountChange) :
    (w.commitOne (a, c)).balance b = w.balance b := by
  unfold commitOne balance Map.at'
  dsimp only
  split_ifs
  · rfl
  · rw [Finmap.lookup_erase_ne h]
  · rw [Finmap.lookup_insert_of_ne _ h]

/-- A touched account that is kept has the balance it was left with. -/
theorem balance_commitOne {c : AccountChange} (ht : c.touched = true)
    (hs : c.selfdestructed = false) : (w.commitOne (address, c)).balance address = c.balance := by
  unfold commitOne balance Map.at'
  simp only [ht, hs, Bool.not_true, Bool.false_eq_true, if_false, Bool.false_or]
  split_ifs with hempty
  · rw [Finmap.lookup_erase]
    unfold AccountChange.isEmpty at hempty
    simp only [Bool.and_eq_true, beq_iff_eq] at hempty
    exact hempty.1.2.symm
  · rw [Finmap.lookup_insert]
    rfl

end World

/-- The sum of `f` over the accounts a transaction touched. -/
def touchedTotal (f : Address → AccountChange → ℕ) (entries : List (Address × AccountChange)) : ℕ :=
  (entries.map fun e => if e.2.touched then f e.1 e.2 else 0).sum

@[simp] theorem touchedTotal_nil (f : Address → AccountChange → ℕ) : touchedTotal f [] = 0 := rfl

@[simp] theorem touchedTotal_cons (f : Address → AccountChange → ℕ) (a : Address)
    (c : AccountChange) (l : List (Address × AccountChange)) :
    touchedTotal f ((a, c) :: l) = (if c.touched then f a c else 0) + touchedTotal f l := rfl

/-- Folding changes in replaces the balances of the touched accounts. -/
theorem World.total_foldl_commitOne : ∀ {l : List (Address × AccountChange)} (w : World),
    (l.map Prod.fst).Nodup →
    (l.foldl World.commitOne w).total + touchedTotal (fun a _ => w.balance a) l ≤
      w.total + touchedTotal (fun _ c => c.balance) l
  | [], w, _ => by simp
  | (a, c) :: l, w, h => by
    rw [List.map_cons, List.nodup_cons] at h
    have hone := w.total_commitOne a c
    have hrest := World.total_foldl_commitOne (w.commitOne (a, c)) h.2
    -- the accounts still to come are as they were
    have hsame : touchedTotal (fun b _ => (w.commitOne (a, c)).balance b) l =
        touchedTotal (fun b _ => w.balance b) l := by
      unfold touchedTotal
      congr 1
      refine List.map_congr_left fun e he => ?_
      have hne : e.1 ≠ a := fun heq => h.1 (List.mem_map.mpr ⟨e, he, heq⟩)
      dsimp only
      rw [w.balance_commitOne_of_ne hne]
    rw [hsame] at hrest
    rw [List.foldl_cons, touchedTotal_cons, touchedTotal_cons]
    omega

theorem World.total_commit (w : World) (changes : ChangeSet) :
    (w.commit changes).total + touchedTotal (fun a _ => w.balance a) changes.entries ≤
      w.total + touchedTotal (fun _ c => c.balance) changes.entries :=
  World.total_foldl_commitOne w changes.nodup

theorem World.balance_foldl_of_notMem {a : Address} : ∀ {l : List (Address × AccountChange)}
    (w : World), a ∉ l.map Prod.fst → (l.foldl World.commitOne w).balance a = w.balance a
  | [], _, _ => rfl
  | (b, d) :: l, w, h => by
    rw [List.map_cons, List.mem_cons, not_or] at h
    rw [List.foldl_cons, World.balance_foldl_of_notMem _ h.2, w.balance_commitOne_of_ne h.1]

/-- A touched account that is kept has the balance it was left with. -/
theorem World.balance_foldl_commitOne {a : Address} {c : AccountChange} (ht : c.touched = true)
    (hs : c.selfdestructed = false) : ∀ {l : List (Address × AccountChange)} (w : World),
    (l.map Prod.fst).Nodup → (a, c) ∈ l → (l.foldl World.commitOne w).balance a = c.balance
  | (b, d) :: l, w, h, hmem => by
    rw [List.map_cons, List.nodup_cons] at h
    rw [List.foldl_cons]
    rcases List.mem_cons.mp hmem with heq | hmem
    · obtain ⟨rfl, rfl⟩ := Prod.mk.inj heq
      rw [World.balance_foldl_of_notMem _ h.1, w.balance_commitOne a ht hs]
    · exact World.balance_foldl_commitOne ht hs _ h.2 hmem

end Evm

end Sidestr
