/-
# Records

The `OP_RETURN` texts of the asset, pool and market rules (`records.rs`). A
record is one minimal push of at most 255 bytes of UTF-8. `classify` sorts a
transaction's records by their first word; a text that starts like one of
them and does not parse is `bad`, which the assets rule refuses.

Key definitions: `recordText`, `parseIssue`, `parseTally`, `parsePool`,
`parseMarket`, `parseQuestion`, `Classified`, `classify`.
Key theorems: `classify_parsed`, `isKeyText_decodes`.
-/
import Sidestr.Core.Text
import Sidestr.Core.Marker

namespace Sidestr

/-- The largest amount a tally may assign. -/
def maxAmount : ℕ := 2 ^ 53 - 1

/-- The longest record, in bytes. -/
def maxRecord : ℕ := 255

/-- The text of an output that is exactly `OP_RETURN` and one minimal push of
at most 255 bytes of UTF-8. -/
def recordText (script : Bytes) : Option Bytes :=
  match script with
  | op :: n :: data =>
    if op ≠ 0x6a then none
    else if 1 ≤ n.toNat ∧ n.toNat ≤ 75 then
      if data.length = n.toNat ∧ utf8Valid data then some data else none
    else if n = 0x4c then
      match data with
      | [] => none
      | n :: data =>
        if n.toNat ≤ 75 then none
        else if data.length = n.toNat ∧ n.toNat ≤ maxRecord ∧ utf8Valid data then some data
        else none
    else none
  | _ => none

/-- Every record of a transaction with its output's index. -/
def recordsOf (tx : Transaction) : List (ℕ × Bytes) :=
  tx.output.zipIdx.filterMap fun (o, v) => (recordText o.scriptPubkey).map fun t => (v, t)

/-! ### The forms -/

/-- `issue:<TICKER>:<decimals>`. -/
structure Issue where
  ticker : Bytes
  decimals : ℕ
  deriving DecidableEq, Repr

/-- Which asset a tally names: the one this transaction makes, or an id. -/
inductive AssetRef where
  | selfTx
  | id (txid : Txid)
  deriving DecidableEq, Repr

/-- `tally:<asset>:<vout>=<amount>[,…]`. -/
structure Tally where
  asset : AssetRef
  /-- Output and amount in the order written; no output twice. -/
  assigns : List (ℕ × ℕ)
  deriving DecidableEq, Repr

/-- `pool:<pool>:<vout>`. -/
structure PoolRecord where
  pool : AssetRef
  vout : ℕ
  deriving DecidableEq, Repr

/-- The answer of a market's resolver. -/
inductive MarketOutcome where
  | yes
  | no
  deriving DecidableEq, Repr

/-- A market action. -/
inductive MarketRecord where
  | open (vout : ℕ) (resolver : Bytes) (expiry grace : ℕ)
  | split (market : Txid) (vout : ℕ)
  | merge (market : Txid) (vout : ℕ)
  | redeem (market : Txid) (vout : ℕ)
  | resolve (market : Txid) (outcome : MarketOutcome)
  deriving DecidableEq, Repr

/-- The market an action names; none for an opening. -/
def MarketRecord.market : MarketRecord → Option Txid
  | .open .. => none
  | .split m _ => some m
  | .merge m _ => some m
  | .redeem m _ => some m
  | .resolve m _ => some m

/-! ### The fields -/

namespace Record

/-- An amount: up to 16 digits, no leading zero, at most `maxAmount`. -/
def amount (s : Bytes) : Option ℕ :=
  if s = [] ∨ 16 < s.length ∨ s.head? = some 0x30 ∨ ¬ s.all isDigit then none
  else if decimal s ≤ maxAmount then some (decimal s) else none

/-- `self`, or 64 lower-case hex digits. -/
def assetRef (s : Bytes) : Option AssetRef :=
  if s = ascii ['s', 'e', 'l', 'f'] then some .selfTx
  else if s.length = 64 ∧ s.all isLowerHexDigit then some (.id (parseHash s))
  else none

/-- A number of one to `n` digits. -/
def digits (n : ℕ) (s : Bytes) : Option ℕ :=
  if 1 ≤ s.length ∧ s.length ≤ n ∧ s.all isDigit then some (decimal s) else none

/-- An output index. -/
def vout (s : Bytes) : Option ℕ := digits 5 s

/-- A height. -/
def height (s : Bytes) : Option ℕ := digits 9 s

/-- A txid; `self` is none. -/
def txid (s : Bytes) : Option Txid :=
  match assetRef s with
  | some (.id h) => some h
  | _ => none

end Record

open Record

/-! ### The parsers -/

/-- The words records start with, each with its colon. -/
def issueTag : Bytes := ascii ['i', 's', 's', 'u', 'e', ':']
def tallyTag : Bytes := ascii ['t', 'a', 'l', 'l', 'y', ':']
def poolTag : Bytes := ascii ['p', 'o', 'o', 'l', ':']
def questionTag : Bytes := ascii ['q', 'u', 'e', 's', 't', 'i', 'o', 'n', ':']

/-- The words of the market actions, without their colons. -/
def marketWord : Bytes := ascii ['m', 'a', 'r', 'k', 'e', 't']
def splitWord : Bytes := ascii ['s', 'p', 'l', 'i', 't']
def mergeWord : Bytes := ascii ['m', 'e', 'r', 'g', 'e']
def redeemWord : Bytes := ascii ['r', 'e', 'd', 'e', 'e', 'm']
def resolveWord : Bytes := ascii ['r', 'e', 's', 'o', 'l', 'v', 'e']

def parseIssue (text : Bytes) : Option Issue := do
  let rest ← stripPrefix issueTag text
  let (ticker, dec) ← splitOnce 0x3a rest
  let okTicker := 1 ≤ ticker.length && ticker.length ≤ 8 &&
    ticker.all fun b => (0x41 ≤ b.toNat && b.toNat ≤ 0x5a) || isDigit b
  match okTicker, dec with
  | true, [d] => if 0x30 ≤ d.toNat ∧ d.toNat ≤ 0x38 then some ⟨ticker, d.toNat - 0x30⟩ else none
  | _, _ => none

/-- The assignments of a tally in order; an output named twice is malformed. -/
def parseAssigns : List (ℕ × ℕ) → List Bytes → Option (List (ℕ × ℕ))
  | seen, [] => some seen
  | seen, part :: parts => do
    let (v, a) ← splitOnce 0x3d part
    let v ← vout v
    let a ← amount a
    if seen.any fun p => p.1 == v then none else parseAssigns (seen ++ [(v, a)]) parts

def parseTally (text : Bytes) : Option Tally := do
  let rest ← stripPrefix tallyTag text
  let (asset, list) ← splitOnce 0x3a rest
  let asset ← assetRef asset
  let assigns ← parseAssigns [] (splitAll 0x2c list)
  some ⟨asset, assigns⟩

def parsePool (text : Bytes) : Option PoolRecord := do
  let rest ← stripPrefix poolTag text
  let (pool, v) ← splitOnce 0x3a rest
  let pool ← assetRef pool
  let v ← vout v
  some ⟨pool, v⟩

/-- A text of 64 lower-case hex digits. -/
def isKeyText (s : Bytes) : Bool := s.length == 64 && s.all isLowerHexDigit

def parseMarket (text : Bytes) : Option MarketRecord :=
  match splitAll 0x3a text with
  | [word, self, output, resolver, expiry, grace] =>
    if word = marketWord ∧ self = ascii ['s', 'e', 'l', 'f'] ∧ isKeyText resolver then do
      let v ← vout output
      let e ← height expiry
      let g ← height grace
      some (.open v resolver e g)
    else none
  | [word, market, last] =>
    if word = splitWord then do some (.split (← txid market) (← vout last))
    else if word = mergeWord then do some (.merge (← txid market) (← vout last))
    else if word = redeemWord then do some (.redeem (← txid market) (← vout last))
    else if word = resolveWord ∧ last = ascii ['y', 'e', 's'] then do
      some (.resolve (← txid market) .yes)
    else if word = resolveWord ∧ last = ascii ['n', 'o'] then do
      some (.resolve (← txid market) .no)
    else none
  | _ => none

/-- A question: one to 200 bytes. -/
def parseQuestion (text : Bytes) : Option Bytes := do
  let question ← stripPrefix questionTag text
  if question = [] ∨ 200 < question.length then none else some question

/-! ### Classification -/

/-- A transaction's records, each with its output's index. -/
structure Classified where
  issues : List (ℕ × Issue) := []
  tallies : List (ℕ × Tally) := []
  pools : List (ℕ × PoolRecord) := []
  markets : List (ℕ × MarketRecord) := []
  questions : List (ℕ × Bytes) := []
  bad : List Bytes := []
  deriving DecidableEq, Repr

/-- Whether a text starts with `p`. -/
def startsWith (p text : Bytes) : Bool := (stripPrefix p text).isSome

/-- One record: parsed by its first word, or bad. Other texts are left alone. -/
def classifyRecord (out : Classified) (p : ℕ × Bytes) : Classified :=
  let (v, text) := p
  if startsWith issueTag text then
    match parseIssue text with
    | some r => { out with issues := out.issues ++ [(v, r)] }
    | none => { out with bad := out.bad ++ [text] }
  else if startsWith tallyTag text then
    match parseTally text with
    | some r => { out with tallies := out.tallies ++ [(v, r)] }
    | none => { out with bad := out.bad ++ [text] }
  else if startsWith poolTag text then
    match parsePool text with
    | some r => { out with pools := out.pools ++ [(v, r)] }
    | none => { out with bad := out.bad ++ [text] }
  else if [marketWord, splitWord, mergeWord, redeemWord, resolveWord].any fun w =>
      startsWith (w ++ [0x3a]) text then
    match parseMarket text with
    | some r => { out with markets := out.markets ++ [(v, r)] }
    | none => { out with bad := out.bad ++ [text] }
  else if startsWith questionTag text then
    match parseQuestion text with
    | some r => { out with questions := out.questions ++ [(v, r)] }
    | none => { out with bad := out.bad ++ [text] }
  else out

/-- Classify every record of a transaction. -/
def classify (tx : Transaction) : Classified := (recordsOf tx).foldl classifyRecord {}

/-- A pool is opened by a `pool:self:` record. -/
def Classified.opensPool (c : Classified) : Bool := c.pools.any fun p => p.2.pool == .selfTx

/-! ### What a parsed record holds -/

/-- The amounts of a tally are positive. -/
def Tally.Positive (t : Tally) : Prop := ∀ p ∈ t.assigns, 1 ≤ p.2 ∧ p.2 ≤ maxAmount

/-- The resolver of an opening is a text of 64 hex digits. -/
def MarketRecord.Keyed : MarketRecord → Prop
  | .open _ resolver _ _ => isKeyText resolver = true
  | _ => True

theorem decimal_pos_from : ∀ (s : Bytes) (n : ℕ), 1 ≤ n →
    1 ≤ s.foldl (fun n x => n * 10 + (x.toNat - 0x30)) n
  | [], _, h => h
  | x :: s, n, h => by
    have hx : 1 ≤ n * 10 + (x.toNat - 0x30) := by omega
    exact decimal_pos_from s _ hx

/-- A parsed amount is positive and bounded. -/
theorem amount_bounds {s : Bytes} {a : ℕ} (h : amount s = some a) : 1 ≤ a ∧ a ≤ maxAmount := by
  unfold amount at h
  split_ifs at h with h1 h2
  rw [Option.some.injEq] at h
  subst h
  refine ⟨?_, h2⟩
  match s, h1 with
  | [], h1 => simp at h1
  | d :: s, h1 =>
    -- the first digit is one of 1 to 9
    simp only [List.head?_cons, Option.some.injEq, List.all_cons, Bool.and_eq_true, not_or,
      Decidable.not_not] at h1
    have hd := h1.2.2.2.1
    simp only [isDigit, Bool.and_eq_true, decide_eq_true_eq] at hd
    have hne : d.toNat ≠ 0x30 := fun e => h1.2.2.1 (UInt8.toNat_inj.mp e)
    simp only [decimal, List.foldl_cons]
    exact decimal_pos_from s _ (by omega)

theorem parseAssigns_positive : ∀ {parts : List Bytes} {seen assigns : List (ℕ × ℕ)},
    parseAssigns seen parts = some assigns → (∀ p ∈ seen, 1 ≤ p.2 ∧ p.2 ≤ maxAmount) →
    ∀ p ∈ assigns, 1 ≤ p.2 ∧ p.2 ≤ maxAmount
  | [], seen, assigns, h, hs => by
    simp only [parseAssigns, Option.some.injEq] at h
    exact h ▸ hs
  | part :: parts, seen, assigns, h, hs => by
    simp only [parseAssigns, Option.bind_eq_bind, Option.bind_eq_some_iff] at h
    obtain ⟨⟨v, a⟩, -, v', -, a', ha, h⟩ := h
    split_ifs at h
    refine parseAssigns_positive h fun p hp => ?_
    rcases List.mem_append.mp hp with hp | hp
    · exact hs p hp
    · rw [List.mem_singleton] at hp
      rw [hp]
      exact amount_bounds ha

theorem parseTally_positive {text : Bytes} {t : Tally} (h : parseTally text = some t) :
    t.Positive := by
  simp only [parseTally, Option.bind_eq_bind, Option.bind_eq_some_iff, Option.some.injEq] at h
  obtain ⟨_, -, ⟨_, _⟩, -, _, -, assigns, ha, rfl⟩ := h
  exact parseAssigns_positive ha (by simp)

theorem parseMarket_keyed {text : Bytes} {m : MarketRecord} (h : parseMarket text = some m) :
    m.Keyed := by
  unfold parseMarket at h
  split at h
  · split_ifs at h with hk
    simp only [Option.bind_eq_bind, Option.bind_eq_some_iff, Option.some.injEq] at h
    obtain ⟨_, -, _, -, _, -, rfl⟩ := h
    exact hk.2.2
  · split_ifs at h
    all_goals
      simp only [Option.bind_eq_bind, Option.bind_eq_some_iff, Option.some.injEq] at h
    · obtain ⟨_, -, _, -, rfl⟩ := h; trivial
    · obtain ⟨_, -, _, -, rfl⟩ := h; trivial
    · obtain ⟨_, -, _, -, rfl⟩ := h; trivial
    · obtain ⟨_, -, rfl⟩ := h; trivial
    · obtain ⟨_, -, rfl⟩ := h; trivial
  · simp at h

/-- What every classified record satisfies. -/
structure Classified.Parsed (c : Classified) : Prop where
  tallies : ∀ p ∈ c.tallies, p.2.Positive
  markets : ∀ p ∈ c.markets, p.2.Keyed

theorem classifyRecord_parsed {out : Classified} {p : ℕ × Bytes} (h : out.Parsed) :
    (classifyRecord out p).Parsed := by
  obtain ⟨v, text⟩ := p
  simp only [classifyRecord]
  split_ifs
  · split
    · exact ⟨h.tallies, h.markets⟩
    · exact ⟨h.tallies, h.markets⟩
  · split
    · rename_i t ht
      refine ⟨fun q hq => ?_, h.markets⟩
      rcases List.mem_append.mp hq with hq | hq
      · exact h.tallies q hq
      · rw [List.mem_singleton] at hq
        exact hq ▸ parseTally_positive ht
    · exact ⟨h.tallies, h.markets⟩
  · split
    · exact ⟨h.tallies, h.markets⟩
    · exact ⟨h.tallies, h.markets⟩
  · split
    · rename_i m hm
      refine ⟨h.tallies, fun q hq => ?_⟩
      rcases List.mem_append.mp hq with hq | hq
      · exact h.markets q hq
      · rw [List.mem_singleton] at hq
        exact hq ▸ parseMarket_keyed hm
    · exact ⟨h.tallies, h.markets⟩
  · split
    · exact ⟨h.tallies, h.markets⟩
    · exact ⟨h.tallies, h.markets⟩
  · exact h

/-- Every classified record is one its parser made. -/
theorem classify_parsed (tx : Transaction) : (classify tx).Parsed := by
  have hfold : ∀ (l : List (ℕ × Bytes)) (out : Classified), out.Parsed →
      (l.foldl classifyRecord out).Parsed := by
    intro l
    induction l with
    | nil => exact fun _ h => h
    | cons p l ih => exact fun out h => ih _ (classifyRecord_parsed h)
  exact hfold _ _ ⟨by simp, by simp⟩

/-- A hex text of even length decodes. -/
theorem hexDecode_isSome : ∀ (s : Bytes), s.length % 2 = 0 → s.all isLowerHexDigit = true →
    (hexDecode s).isSome = true
  | [], _, _ => rfl
  | [_], h, _ => by simp at h
  | a :: b :: l, h, hall => by
    simp only [List.all_cons, Bool.and_eq_true] at hall
    obtain ⟨x, hx⟩ := Option.isSome_iff_exists.mp (hexVal_isSome hall.1)
    obtain ⟨y, hy⟩ := Option.isSome_iff_exists.mp (hexVal_isSome hall.2.1)
    have hl : l.length % 2 = 0 := by
      simp only [List.length_cons] at h
      omega
    obtain ⟨z, hz⟩ := Option.isSome_iff_exists.mp (hexDecode_isSome l hl hall.2.2)
    simp [hexDecode, hx, hy, hz]

/-- A resolver's text decodes. -/
theorem isKeyText_decodes {s : Bytes} (h : isKeyText s = true) : (hexDecode s).isSome = true := by
  simp only [isKeyText, Bool.and_eq_true, beq_iff_eq] at h
  exact hexDecode_isSome s (by rw [h.1]) h.2

end Sidestr
