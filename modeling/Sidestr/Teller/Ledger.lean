/-
# The ledger

A ledger is a document: a genesis that its hash is of, balances as texts of
digits, and the receipts of what changed them. Three moves change it, each
applied once: a deposit's credit by its outpoint, a transfer and a
withdrawal's debit by the request's id.

Key definitions: `Ledger`, `Ledger.balance`, `Ledger.total`, `credit`,
`transfer`, `debit`.
-/
import Sidestr.Lib.Method
import Sidestr.Teller.Account

namespace Sidestr

namespace Teller

/-- What is fixed at creation. -/
structure Genesis where
  operator : Text
  name : Text
  currency : Text
  created : ℕ
  confirmations : ℕ
  deriving DecidableEq

/-- One account's balance. -/
structure Entry where
  type : Text
  url : Text
  amount : Text
  deriving DecidableEq

/-- A deposit credited. -/
structure Deposit where
  outpoint : Text
  account : Text
  value : ℕ
  height : Option ℕ
  «at» : ℕ
  deriving DecidableEq

/-- A withdrawal paid out. -/
structure Payout where
  id : Text
  account : Text
  value : ℕ
  «to» : Option Text
  txid : Option Text
  «at» : ℕ
  deriving DecidableEq

structure Ledger where
  context : Text
  type : Text
  id : Text
  hash : Text
  name : Text
  defaultCurrency : Text
  genesis : Genesis
  updated : ℕ
  entries : List Entry
  deposits : List Deposit
  applied : List Text
  payouts : List Payout
  deriving DecidableEq

/-- What a new ledger is given. -/
structure LedgerParams where
  operator : Text
  name : Text
  currency : Text
  created : ℕ
  confirmations : ℕ

/-- The longest name, in UTF-16 code units. -/
def maxName : ℕ := 80

def utf16Len (t : Text) : ℕ := (t.map fun c => if c.toNat < 0x10000 then 1 else 2).sum

/-- A ledger with no balances. Its hash is the genesis's, by `genesisHash`. -/
def newLedger (genesisHash : Genesis → Text) (p : LedgerParams) : Res LedgerError Ledger := do
  let operator ← accountOf p.operator
  let genesis : Genesis := ⟨operator, p.name, p.currency, p.created, p.confirmations⟩
  Res.refuseIf (genesis.name.isEmpty || decide (maxName < utf16Len genesis.name)) .name
  let h := genesisHash genesis
  .ok {
    context := "https://w3id.org/webledgers".toList
    type := "WebLedger".toList
    id := "urn:webledgers:".toList ++ h
    hash := h
    name := genesis.name
    defaultCurrency := genesis.currency
    genesis
    updated := genesis.created
    entries := []
    deposits := []
    applied := []
    payouts := [] }

namespace Ledger

variable (l : Ledger)

def entryIndex (account : Text) : Option ℕ := l.entries.findIdx? fun e => e.url == account

/-- The account's satoshis, 0 if it has no entry. -/
def balance (account : Text) : Res LedgerError ℕ := do
  let a ← accountOf account
  match l.entryIndex a with
  | some i => do
    let e ← Res.expect l.entries[i]?
    sats e.amount
  | none => .ok 0

def setBalance (account : Text) (n : ℕ) : Ledger :=
  match l.entryIndex account with
  | some i => { l with entries := l.entries.modify i fun e => { e with amount := textOf n } }
  | none => { l with entries := l.entries ++ [⟨"Entry".toList, account, textOf n⟩] }

def touch (now : ℕ) : Ledger := { l with updated := max l.updated now }

/-- One more balance: the sum stays a `u64`. -/
def addEntry (s : ℕ) (e : Entry) : Res LedgerError ℕ := do
  let n ← sats e.amount
  if s + n < 2 ^ 64 then .ok (s + n) else .err .amount

/-- Every balance added up. -/
def total : Res LedgerError ℕ := Res.foldlM addEntry 0 l.entries

end Ledger

/-! ### Moves -/

/-- Whether a move changed the ledger. -/
inductive Outcome
  | applied
  | skipped (why : Text)
  deriving DecidableEq

/-- A deposit seen on the chain. -/
structure Credit where
  account : Text
  txid : Text
  vout : ℕ
  value : ℕ
  height : Option ℕ

def Credit.key (c : Credit) : Text := c.txid ++ ':' :: textOf c.vout

structure Transfer where
  id : Text
  «from» : Text
  «to» : Text
  amount : ℕ

/-- A withdrawal paid out. -/
structure Debit where
  id : Text
  account : Text
  amount : ℕ
  «to» : Text
  txid : Text

/-- The smallest withdrawal. -/
def minPay : ℕ := 546

/-- The start of an account, as an error shows it. -/
def short (account : Text) : Text := account.take 20

open Method

/-- A deposit credits its account once: the outpoint is the receipt. -/
def credit (c : Credit) (now : ℕ) : Method LedgerError Ledger Outcome := do
  let a ← ofRes (accountOf c.account)
  ofRes (Res.refuseIf (!isHex64 c.txid) .outpoint)
  let l ← get
  if l.deposits.any fun d => d.outpoint == c.key then
    return .skipped "already credited".toList
  let v ← ofRes (checkSats c.value)
  let b ← read fun l => l.balance a
  modify fun l => l.setBalance a (b + v)
  modify fun l => { l with deposits := l.deposits ++ [⟨c.key, a, v, c.height, now⟩] }
  modify fun l => l.touch now
  return .applied

/-- Whole satoshis between accounts, applied once by the request's id. -/
def transfer (t : Transfer) (now : ℕ) : Method LedgerError Ledger Outcome := do
  let f ← ofRes (accountOf t.from)
  let «to» ← ofRes (accountOf t.to)
  let v ← ofRes (checkSats t.amount)
  ofRes (Res.refuseIf (v == 0) .zeroTransfer)
  let l ← get
  if l.applied.contains t.id then
    return .skipped "already applied".toList
  let has ← read fun l => l.balance f
  ofRes (Res.refuseIf (decide (has < v)) (.insufficient (short f) has v))
  modify fun l => l.setBalance f (has - v)
  let b ← read fun l => l.balance «to»
  modify fun l => l.setBalance «to» (b + v)
  modify fun l => { l with applied := l.applied ++ [t.id] }
  modify fun l => l.touch now
  return .applied

/-- A withdrawal debits the account, once by its id. -/
def debit (d : Debit) (now : ℕ) : Method LedgerError Ledger Outcome := do
  let a ← ofRes (accountOf d.account)
  let v ← ofRes (checkSats d.amount)
  ofRes (Res.refuseIf (decide (v < minPay)) .withdrawalTooSmall)
  let l ← get
  if l.applied.contains d.id then
    return .skipped "already applied".toList
  let has ← read fun l => l.balance a
  ofRes (Res.refuseIf (decide (has < v)) (.insufficient (short a) has v))
  modify fun l => l.setBalance a (has - v)
  modify fun l => { l with applied := l.applied ++ [d.id] }
  modify fun l => { l with payouts := l.payouts ++ [⟨d.id, a, v, some d.to, some d.txid, now⟩] }
  modify fun l => l.touch now
  return .applied

/-- A call of the three. -/
inductive Move
  | credit (c : Credit)
  | transfer (t : Transfer)
  | debit (d : Debit)

def Move.run : Move → ℕ → Method LedgerError Ledger Outcome
  | .credit c, now => Teller.credit c now
  | .transfer t, now => Teller.transfer t now
  | .debit d, now => Teller.debit d now

end Teller

end Sidestr
