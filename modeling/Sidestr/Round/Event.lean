/-
# Events between the signers

The signers of a federation talk by signed events over relays (`sidestr-nostr`).
An event is an author, a kind, tags and a content; what a signer receives is
checked on receipt (its kind, that it has not been seen, its chain tag, its
signature) and then decoded. Nothing is assumed of the relays: any event may
arrive, at any time and any number of times.

Key definitions: `Event`, `Follower.accept`, `parseBurnKey`, `parsePegoutPsbt`,
`parsePegoutSigned`.
-/
import Sidestr.Core.Text
import Sidestr.Round.Ledger

namespace Sidestr

namespace Round

/-! ### Events -/

/-- Byte strings are compared byte by byte. -/
instance lawfulBytes : LawfulBEq Bytes := List.instLawfulBEq

/-- An event before it is signed. -/
structure UnsignedEvent where
  /-- The author's x-only key, 64 hex characters. -/
  pubkey : Bytes
  /-- Unix seconds. -/
  createdAt : ℕ
  kind : ℕ
  tags : List (List Bytes)
  content : Bytes
  deriving DecidableEq

/-- A signed event: with its id and its signature, as hex. -/
structure Event extends UnsignedEvent where
  id : Bytes
  sig : Bytes
  deriving DecidableEq

/-- The serialisations the events rest on: the id of an event's fields (SHA-256
of a JSON array). -/
class EventCodec where
  idBytes : UnsignedEvent → Hash256

/-- White space at the front of a UTF-8 text, off. -/
def trimStart : Bytes → Bytes
  | a :: b :: c :: l =>
    if a = 0x20 ∨ (0x09 ≤ a.toNat ∧ a.toNat ≤ 0x0d) then trimStart (b :: c :: l)
    else if a = 0xc2 ∧ (b = 0x85 ∨ b = 0xa0) then trimStart (c :: l)
    else if (a = 0xe1 ∧ b = 0x9a ∧ c = 0x80) ∨ (a = 0xe3 ∧ b = 0x80 ∧ c = 0x80) ∨
        (a = 0xe2 ∧ b = 0x81 ∧ c = 0x9f) ∨
        (a = 0xe2 ∧ b = 0x80 ∧ ((0x80 ≤ c.toNat ∧ c.toNat ≤ 0x8a) ∨ c = 0xa8 ∨ c = 0xa9 ∨ c = 0xaf))
      then trimStart l
    else a :: b :: c :: l
  | [a, b] =>
    if a = 0x20 ∨ (0x09 ≤ a.toNat ∧ a.toNat ≤ 0x0d) then trimStart [b]
    else if a = 0xc2 ∧ (b = 0x85 ∨ b = 0xa0) then []
    else [a, b]
  | [a] => if a = 0x20 ∨ (0x09 ≤ a.toNat ∧ a.toNat ≤ 0x0d) then [] else [a]
  | [] => []

/-- White space at the end of a text: the bytes of the wide spaces, read backwards. -/
def trimEndReversed : Bytes → Bytes
  | c :: b :: a :: l =>
    if c = 0x20 ∨ (0x09 ≤ c.toNat ∧ c.toNat ≤ 0x0d) then trimEndReversed (b :: a :: l)
    else if b = 0xc2 ∧ (c = 0x85 ∨ c = 0xa0) then trimEndReversed (a :: l)
    else if (a = 0xe1 ∧ b = 0x9a ∧ c = 0x80) ∨ (a = 0xe3 ∧ b = 0x80 ∧ c = 0x80) ∨
        (a = 0xe2 ∧ b = 0x81 ∧ c = 0x9f) ∨
        (a = 0xe2 ∧ b = 0x80 ∧ ((0x80 ≤ c.toNat ∧ c.toNat ≤ 0x8a) ∨ c = 0xa8 ∨ c = 0xa9 ∨ c = 0xaf))
      then trimEndReversed l
    else c :: b :: a :: l
  | [b, a] =>
    if b = 0x20 ∨ (0x09 ≤ b.toNat ∧ b.toNat ≤ 0x0d) then trimEndReversed [a]
    else if a = 0xc2 ∧ (b = 0x85 ∨ b = 0xa0) then []
    else [b, a]
  | [a] => if a = 0x20 ∨ (0x09 ≤ a.toNat ∧ a.toNat ≤ 0x0d) then [] else [a]
  | [] => []

/-- A text without the white space around it. -/
def trim (s : Bytes) : Bytes := (trimEndReversed (trimStart s).reverse).reverse

/-- Hex of so many bytes, trimmed and in lower case. -/
def hexOf (s : Bytes) (bytes : ℕ) : Option Bytes :=
  if (trim s).length = bytes * 2 ∧ (trim s).all isHexDigit then some (toLower (trim s)) else none

section

variable [Bitcoin]

/-- An x-only public key from 64 hex characters. -/
def pubkeyFromHex (s : Bytes) : Option Bytes := do
  let text ← hexOf s 32
  let key ← hexDecode text
  if Bitcoin.isXOnly key then some key else none

/-- The id is the hash of the fields and the signature is the author's over it. -/
def Event.verify [EventCodec] (ev : Event) : Bool :=
  let id := EventCodec.idBytes ev.toUnsignedEvent
  toLower ev.id == hexEncode (displayBytes id) &&
    match pubkeyFromHex ev.pubkey, hexDecode (trim ev.sig) with
    | some key, some sig => sig.length == 64 && Bitcoin.schnorrVerify id sig key
    | _, _ => false

end

/-! ### Tags -/

def tagChain : Bytes := ascii ['c', 'h', 'a', 'i', 'n']

def tagD : Bytes := ascii ['d']

def tagE : Bytes := ascii ['e']

def tagH : Bytes := ascii ['h']

/-- The first value of the first tag of a name. -/
def firstTag (name : Bytes) : List (List Bytes) → Option Bytes
  | [] => none
  | (n :: value :: _) :: tags => if n = name then some value else firstTag name tags
  | _ :: tags => firstTag name tags

/-- Whether some tag of the event names this chain. -/
def isForChain (tags : List (List Bytes)) (chainId : Bytes) : Bool :=
  tags.any fun t =>
    match t with
    | n :: value :: _ => n == tagChain && value == chainId
    | _ => false

/-- The chain tag, when it is the chain expected. -/
def chainTag (tags : List (List Bytes)) (chainId : Bytes) : Option Bytes :=
  (firstTag tagChain tags).filter fun c => c == chainId

/-- A decimal that fits 32 bits. -/
def parseU32 (s : Bytes) : Option ℕ :=
  if s ≠ [] ∧ s.all isDigit ∧ decimal s ≤ Word.maxVal 32 then some (decimal s) else none

/-- A burn's outpoint: 64 hex characters, a colon, a decimal. -/
def parseBurnKey (s : Bytes) : Option BurnKey := do
  let (txid, vout) ← splitOnce 0x3a s
  let txid ← hexOf txid 32
  let vout ← parseU32 vout
  some (parseHash txid, vout)

/-- A burn's outpoint as text. -/
def burnKeyText (k : BurnKey) : Bytes := hashText k.1 ++ [0x3a] ++ decimalText k.2

/-- A PSBT in an event: base64, trimmed. -/
def psbtOf (s : Bytes) : Option Bytes :=
  if trim s ≠ [] ∧ (trim s).all (fun b =>
      isDigit b || (0x41 ≤ b.toNat && b.toNat ≤ 0x5a) || (0x61 ≤ b.toNat && b.toNat ≤ 0x7a) ||
        b == 0x2b || b == 0x2f || b == 0x3d) then some (trim s) else none

/-! ### The events of the peg-out round -/

def kindPegoutPsbt : ℕ := 23512

def kindPegoutSigned : ℕ := 23513

/-- A payer's PSBT for a burn. -/
structure PegoutPsbt where
  chainId : Bytes
  burn : BurnKey
  height : ℕ
  psbt : Bytes

/-- A co-signed PSBT that answers one. -/
structure PegoutSigned where
  chainId : Bytes
  burn : BurnKey
  /-- The id of the event it answers. -/
  request : Bytes
  psbt : Bytes

def pegoutPsbtEvent (p : PegoutPsbt) (createdAt : ℕ) : Option UnsignedEvent := do
  let content ← psbtOf p.psbt
  some ⟨[], createdAt, kindPegoutPsbt,
    [[tagChain, p.chainId], [tagD, burnKeyText p.burn], [tagH, decimalText p.height]], content⟩

def parsePegoutPsbt (ev : Event) (chainId : Bytes) : Option PegoutPsbt := do
  if ev.kind ≠ kindPegoutPsbt then none
  else
    let chain ← chainTag ev.tags chainId
    let burn ← (firstTag tagD ev.tags).bind parseBurnKey
    let height ← (firstTag tagH ev.tags).bind parseU32
    let psbt ← psbtOf ev.content
    some ⟨chain, burn, height, psbt⟩

def pegoutSignedEvent (p : PegoutSigned) (createdAt : ℕ) : Option UnsignedEvent := do
  let request ← hexOf p.request 32
  let content ← psbtOf p.psbt
  some ⟨[], createdAt, kindPegoutSigned,
    [[tagChain, p.chainId], [tagD, burnKeyText p.burn], [tagE, request]], content⟩

def parsePegoutSigned (ev : Event) (chainId : Bytes) : Option PegoutSigned := do
  if ev.kind ≠ kindPegoutSigned then none
  else
    let chain ← chainTag ev.tags chainId
    let burn ← (firstTag tagD ev.tags).bind parseBurnKey
    let request ← (firstTag tagE ev.tags).bind fun e => hexOf e 32
    let psbt ← psbtOf ev.content
    some ⟨chain, burn, request, psbt⟩

/-! ### Receipt -/

/-- One kind on one chain, and the ids seen, newest first. -/
structure Follower where
  kind : ℕ
  chainId : Bytes
  seen : List Bytes
  deriving DecidableEq

/-- How many ids a follower remembers. -/
def Follower.cap : ℕ := 10000

def Follower.new (kind : ℕ) (chainId : Bytes) : Follower := ⟨kind, chainId, []⟩

def Follower.remember (f : Follower) (id : Bytes) : Follower :=
  { f with seen := (id :: f.seen).take Follower.cap }

/-- The checks on receipt: kind, seen, chain tag, signature. -/
def Follower.accept [Bitcoin] [EventCodec] (f : Follower) (ev : Event) : Follower × Bool :=
  if ev.kind ≠ f.kind ∨ ev.id ∈ f.seen then (f, false)
  else if !isForChain ev.tags f.chainId then (f, false)
  else (f.remember ev.id, ev.verify)

end Round

end Sidestr
