/-
# The pledge and its reader

Kind 33502 carries two schemas told apart by structure (`record.rs`): a peg
record as a JSON object, and a desk's pledge, a transaction with one input and
two outputs whose second is the peg-in marker of a chain. The builder refuses a
pledge whose input does not spend the outpoint the `d` tag names; the reader
does not ask. What the reader takes for a pledge the builder would make exactly
when it spends that outpoint (`pledge_read_iff`).

Key definitions: `pledgeShape`, `pledgeEvent`, `parseRecord`, `Spends`.
Key theorems: `pledgeShape_ok`, `parseRecord_pledge`, `parseRecord_pledgeEvent`,
`marker_names_payee`, `pledge_read_iff`.
-/
import Sidestr.Core.Sample
import Sidestr.Nostr.Tags
import Sidestr.Parent.Pegin

namespace Sidestr

namespace Nostr

open Round
open Parent (pegTag parsePegMarker)

def kindPegRecord : ℕ := 33502

/-- What a text is as JSON. -/
inductive JsonText (Fields : Type)
  | object (fields : Fields)
  | other
  | malformed

/-- What the records take of their dependencies. -/
class RecordCodec (Fields : Type) where
  /-- `consensus::encode::deserialize` of a transaction. -/
  deserialize : Bytes → Option Transaction
  /-- `serde_json::from_str`. -/
  fromStr : Bytes → JsonText Fields

/-- A pre-signed maturity transaction that spends a locked reward to the peg. -/
structure Pledge where
  /-- The reward, from `d`. -/
  outpoint : Outpoint
  /-- The chain the marker names. -/
  chainId : Bytes
  txHex : Bytes
  lockTime : UInt32
  /-- The key-path script the marker names, hex. -/
  payeeScript : Bytes
  pegValue : UInt64
  pegScript : Bytes
  deriving DecidableEq

structure PegRecord (Fields : Type) where
  outpoint : Outpoint
  chainId : Option Bytes
  fields : Fields

structure Ambiguous where
  outpoint : Outpoint
  reason : String

inductive Record (Fields : Type)
  | pledge (p : Pledge)
  | pegRecord (r : PegRecord Fields)
  | ambiguous (a : Ambiguous)

/-- What a pledge-shaped transaction says. -/
structure PledgeShape where
  chainId : Bytes
  payeeScript : Bytes
  pegValue : UInt64
  pegScript : Bytes
  lockTime : UInt32
  deriving DecidableEq

/-- The payee script's length in a pledge marker. -/
def payeeLen : ℕ := 34

/-- The chain and the payee of a marker's text after `pegin:`: the payee is its
last 34 bytes, behind a colon. -/
def splitMarker (rest : Bytes) : Res String (Bytes × Bytes) := do
  Res.refuseIf (decide (rest.length < payeeLen + 2))
    "the marker does not name a chain and a 34-byte script"
  let chain := rest.take (rest.length - payeeLen - 1)
  match rest.drop (rest.length - payeeLen - 1) with
  | sep :: script => do
    Res.refuseIf (sep != 0x3a) "the marker does not name a chain and a 34-byte script"
    Res.refuseIf (script.take 2 != [0x51, 0x20]) "the payee is not a key-path script"
    .ok (chain, script)
  | [] => .panic

/-- What the transaction says when it has the pledge shape, else why not. -/
def pledgeShape (tx : Transaction) : Res String PledgeShape :=
  match tx.input, tx.output with
  | [_], [peg, marker] => do
    let data ← Res.okOr "output 1 is not the marker" (opReturnData marker.scriptPubkey)
    let rest ← Res.okOr "output 1 is not a pegin: marker" (stripPrefix pegTag data)
    let (chain, script) ← splitMarker rest
    Res.refuseIf (!utf8Valid chain) "the marker's chain id is not UTF-8"
    Res.refuseIf chain.isEmpty "the marker does not name a chain"
    .ok ⟨chain, hexEncode script, peg.value, hexEncode peg.scriptPubkey, tx.lockTime⟩
  | _, _ => .err "a pledge has one input and two outputs"

section

variable {Fields : Type} [RecordCodec Fields]

/-- The transaction a hex text writes. -/
def txOf (Fields : Type) [RecordCodec Fields] (txHex : Bytes) : Option Transaction :=
  (hexDecode txHex).bind (RecordCodec.deserialize Fields)

/-- The input spends exactly the outpoint. -/
def Spends (tx : Transaction) (o : Outpoint) : Prop :=
  ∃ i, tx.input = [i] ∧ i.previousOutput.vout = o.vout ∧
    hashText i.previousOutput.txid = toLower o.txid

/-- The unsigned pledge event. -/
def pledgeEvent (Fields : Type) [RecordCodec Fields] (chainId : Bytes) (reward : Outpoint)
    (txHex : Bytes) (createdAt : ℕ) : Res EventError UnsignedEvent := do
  let txHex ← anyHex "pledge transaction" txHex
  let raw ← Res.expect (hexDecode txHex)
  let tx ← Res.okOr (.content "not a transaction") (RecordCodec.deserialize Fields raw)
  match pledgeShape tx with
  | .err why => .err (.content why)
  | .panic => .panic
  | .ok p => do
    Res.refuseIf (p.chainId != chainId) (.chain "the marker names" p.chainId)
    let spent ← Res.expect (tx.input.head?.map TxIn.previousOutput)
    Res.refuseIf (spent.vout != reward.vout || hashText spent.txid != toLower reward.txid)
      (.disagree tagD reward.text (hashText spent.txid ++ 0x3a :: decimalText spent.vout.toNat))
    .ok ⟨[], createdAt, kindPegRecord, [[tagChain, chainId], [tagD, reward.text]], txHex⟩

/-- An event of the kind decoded by structure. -/
def parseRecord (Fields : Type) [RecordCodec Fields] (ev : Event) :
    Res EventError (Record Fields) := do
  expectKind ev.kind kindPegRecord "peg record | pledge"
  let d ← requiredTag tagD ev.tags
  let outpoint ← Outpoint.parse d
  let chainTag := firstTag tagChain ev.tags
  let content := trim ev.content
  if content.head? = some 0x7b then
    match (RecordCodec.fromStr content : JsonText Fields) with
    | .object fields => .ok (.pegRecord ⟨outpoint, chainTag, fields⟩)
    | .other => .ok (.ambiguous ⟨outpoint, "JSON, but not an object"⟩)
    | .malformed => .ok (.ambiguous ⟨outpoint, "looks like JSON but does not parse"⟩)
  else
    match anyHex "content" content with
    | .ok txHex => do
      let raw ← Res.expect (hexDecode txHex)
      match RecordCodec.deserialize Fields raw with
      | none => .ok (.ambiguous ⟨outpoint, "hex, but not a transaction"⟩)
      | some tx =>
        match pledgeShape tx with
        | .ok p =>
          if chainTag.any fun c => c != p.chainId then
            .ok (.ambiguous ⟨outpoint, "the chain tag says another chain than the marker"⟩)
          else .ok (.pledge ⟨outpoint, p.chainId, txHex, p.lockTime, p.payeeScript, p.pegValue,
            p.pegScript⟩)
        | .err why => .ok (.ambiguous ⟨outpoint, why⟩)
        | .panic => .panic
    | .err _ => .ok (.ambiguous ⟨outpoint, "neither a transaction hex nor a JSON object"⟩)
    | .panic => .panic

end

/-! ### The shape -/

theorem splitMarker_ok {rest chain script : Bytes} (h : splitMarker rest = .ok (chain, script)) :
    rest = chain ++ 0x3a :: script ∧ script.length = 34 ∧ script.take 2 = [0x51, 0x20] := by
  unfold splitMarker at h
  obtain ⟨_, hlen, h⟩ := Res.bind_eq_ok.mp h
  rw [Res.refuseIf_eq_ok, decide_eq_false_iff_not, Nat.not_lt] at hlen
  unfold payeeLen at hlen h
  dsimp only at h
  cases hdrop : rest.drop (rest.length - 34 - 1) with
  | nil =>
    rw [hdrop] at h
    cases h
  | cons sep tail =>
    rw [hdrop] at h
    obtain ⟨_, hsep, h⟩ := Res.bind_eq_ok.mp h
    obtain ⟨_, hkey, h⟩ := Res.bind_eq_ok.mp h
    rw [Res.refuseIf_eq_ok, bne_eq_false_iff_eq] at hsep hkey
    rw [Res.ok.injEq, Prod.mk.injEq] at h
    obtain ⟨rfl, rfl⟩ := h
    have hcount := congrArg List.length hdrop
    rw [List.length_drop, List.length_cons] at hcount
    refine ⟨?_, by omega, hkey⟩
    rw [← hsep, ← hdrop, List.take_append_drop]

theorem splitMarker_append {chain script : Bytes} (hne : chain ≠ []) (hlen : script.length = 34)
    (hkey : script.take 2 = [0x51, 0x20]) :
    splitMarker (chain ++ 0x3a :: script) = .ok (chain, script) := by
  have hpos := List.length_pos_of_ne_nil hne
  have htotal : (chain ++ 0x3a :: script).length - 34 - 1 = chain.length := by
    rw [List.length_append, List.length_cons]
    omega
  unfold splitMarker payeeLen
  rw [decide_eq_false, Res.refuseIf_false, Res.ok_bind]
  · dsimp only
    rw [htotal, List.drop_left, List.take_left]
    dsimp only
    rw [bne_self_eq_false, Res.refuseIf_false, Res.ok_bind, hkey, bne_self_eq_false,
      Res.refuseIf_false, Res.ok_bind]
  · rw [List.length_append, List.length_cons]
    omega

/-- What a pledge-shaped transaction is. -/
theorem pledgeShape_ok {tx : Transaction} {p : PledgeShape} (h : pledgeShape tx = .ok p) :
    ∃ i peg marker script, tx.input = [i] ∧ tx.output = [peg, marker] ∧
      opReturnData marker.scriptPubkey = some (pegTag ++ (p.chainId ++ 0x3a :: script)) ∧
      script.length = 34 ∧ script.take 2 = [0x51, 0x20] ∧ p.payeeScript = hexEncode script ∧
      p.chainId ≠ [] := by
  unfold pledgeShape at h
  split at h
  · rename_i i peg marker hin hout
    obtain ⟨data, hdata, h⟩ := Res.bind_eq_ok.mp h
    obtain ⟨rest, hrest, h⟩ := Res.bind_eq_ok.mp h
    obtain ⟨⟨chain, script⟩, hsplit, h⟩ := Res.bind_eq_ok.mp h
    dsimp only at h
    obtain ⟨_, hutf, h⟩ := Res.bind_eq_ok.mp h
    obtain ⟨_, hne, h⟩ := Res.bind_eq_ok.mp h
    rw [Res.okOr_eq_ok] at hdata hrest
    rw [Res.refuseIf_eq_ok, List.isEmpty_eq_false_iff] at hne
    obtain ⟨hparts, hlen, hkey⟩ := splitMarker_ok hsplit
    rw [Res.ok.injEq] at h
    subst h
    refine ⟨i, peg, marker, script, hin, hout, ?_, hlen, hkey, rfl, hne⟩
    rw [hdata, eq_append_of_stripPrefix hrest, hparts]
  · cases h

/-- **The core reads the same payee.** The marker of a pledge-shaped transaction,
split from the front, names the script that was split off its end. -/
theorem marker_names_payee {script chain data : Bytes} {spk : Bytes}
    (hdata : opReturnData spk = some data) (heq : data = pegTag ++ (chain ++ 0x3a :: script))
    (hlen : script.length = 34) (hkey : script.take 2 = [0x51, 0x20]) :
    parsePegMarker spk chain = some script := by
  have hstrip : stripPrefix (pegTag ++ chain ++ [0x3a]) data = some script := by
    have hsame : data = (pegTag ++ chain ++ [0x3a]) ++ script := by
      rw [heq, List.append_assoc, List.append_assoc]
      rfl
    rw [hsame, stripPrefix_append]
  obtain ⟨tail, rfl⟩ : ∃ tail, script = 0x51 :: 0x20 :: tail := by
    match script, hkey with
    | a :: b :: tail, hkey =>
      simp only [List.take_succ_cons, List.take_zero, List.cons.injEq, and_true] at hkey
      exact ⟨tail, by rw [hkey.1, hkey.2]⟩
  have hbom : withoutBom (0x51 :: 0x20 :: tail) = 0x51 :: 0x20 :: tail := rfl
  unfold parsePegMarker
  simp only [hdata, hstrip, Option.bind_eq_bind, Option.bind_some]
  rw [if_neg (by simp)]
  unfold markerText
  rw [hbom]
  split
  · rename_i text htext
    split_ifs at htext
    rw [Option.some.injEq] at htext
    rw [← htext, if_neg]
    rintro ⟨-, -, hhex⟩
    rw [List.all_cons, Bool.and_eq_true] at hhex
    exact absurd hhex.1 (by decide)
  · rfl

/-! ### The reader and the builder -/

section

variable {Fields : Type} [RecordCodec Fields]

/-- What an event says where its content is a pledge of its chain: the outpoint
of `d`, the hex, the transaction and its shape. -/
def IsPledge (Fields : Type) [RecordCodec Fields] (ev : Event) (o : Outpoint) (txHex : Bytes)
    (tx : Transaction) (shape : PledgeShape) : Prop :=
  (∃ d, firstTag tagD ev.tags = some d ∧ Outpoint.parse d = .ok o) ∧
    (trim ev.content).head? ≠ some 0x7b ∧ anyHex "content" (trim ev.content) = .ok txHex ∧
    txOf Fields txHex = some tx ∧ pledgeShape tx = .ok shape ∧
    ∀ c, firstTag tagChain ev.tags = some c → c = shape.chainId

theorem txOf_of_expect {txHex raw : Bytes} {tx : Transaction}
    (hraw : (Res.expect (hexDecode txHex) : Res EventError Bytes) = .ok raw)
    (hde : RecordCodec.deserialize Fields raw = some tx) : txOf Fields txHex = some tx := by
  unfold txOf
  cases hd : hexDecode txHex with
  | none =>
    rw [hd] at hraw
    cases hraw
  | some b =>
    rw [hd, Res.expect_some, Res.ok.injEq] at hraw
    rw [Option.bind_some, hraw]
    exact hde

/-- What is read as a pledge. -/
theorem parseRecord_pledge {ev : Event} {p : Pledge} (h : parseRecord Fields ev = .ok (.pledge p)) :
    ∃ tx shape, IsPledge Fields ev p.outpoint p.txHex tx shape ∧
      shape.chainId = p.chainId ∧ shape.payeeScript = p.payeeScript := by
  unfold parseRecord at h
  obtain ⟨_, -, h⟩ := Res.bind_eq_ok.mp h
  obtain ⟨d, hd, h⟩ := Res.bind_eq_ok.mp h
  obtain ⟨outpoint, hparse, h⟩ := Res.bind_eq_ok.mp h
  unfold requiredTag at hd
  rw [Res.okOr_eq_ok] at hd
  dsimp only at h
  split_ifs at h with hbrace
  · split at h <;> cases h
  · split at h
    · rename_i txHex htx
      obtain ⟨raw, hraw, h⟩ := Res.bind_eq_ok.mp h
      split at h
      · cases h
      · rename_i tx hde
        split at h
        · rename_i shape hshape
          rw [ite_eq_iff] at h
          obtain ⟨-, h⟩ | ⟨hchain, h⟩ := h
          · cases h
          rw [Res.ok.injEq, Record.pledge.injEq] at h
          subst h
          refine ⟨tx, shape, ⟨⟨d, hd, hparse⟩, hbrace, htx, txOf_of_expect hraw hde, hshape, ?_⟩,
            rfl, rfl⟩
          intro c hc
          rw [hc, Option.any_some, bne_iff_ne, ne_eq, not_not] at hchain
          exact hchain
        · cases h
        · cases h
    · cases h
    · cases h

/-- Such an event is read as a pledge. -/
theorem parseRecord_of_isPledge {ev : Event} (hkind : ev.kind = kindPegRecord) {o : Outpoint}
    {txHex : Bytes} {tx : Transaction} {shape : PledgeShape}
    (h : IsPledge Fields ev o txHex tx shape) :
    parseRecord Fields ev = .ok (.pledge ⟨o, shape.chainId, txHex, shape.lockTime,
      shape.payeeScript, shape.pegValue, shape.pegScript⟩) := by
  obtain ⟨⟨d, hd, hparse⟩, hbrace, htx, hof, hshape, hchain⟩ := h
  obtain ⟨raw, hraw, hde⟩ := Option.bind_eq_some_iff.mp hof
  have hagree : ((firstTag tagChain ev.tags).any fun c => c != shape.chainId) = false := by
    cases hc : firstTag tagChain ev.tags with
    | none => rfl
    | some c => rw [Option.any_some, hchain c hc, bne_self_eq_false]
  unfold parseRecord expectKind requiredTag
  rw [if_pos hkind, Res.ok_bind, hd, Res.okOr_some, Res.ok_bind, hparse, Res.ok_bind]
  dsimp only
  rw [if_neg hbrace, htx]
  dsimp only
  rw [hraw, Res.expect_some, Res.ok_bind, hde]
  dsimp only
  rw [hshape]
  dsimp only
  rw [hagree, if_neg Bool.false_ne_true]

/-- A parsed outpoint is in lower case. -/
theorem Outpoint.parse_lower {d : Bytes} {o : Outpoint} (h : Outpoint.parse d = .ok o) :
    toLower o.txid = o.txid := by
  unfold Outpoint.parse at h
  obtain ⟨⟨txid, vout⟩, hsplit, h⟩ := Res.bind_eq_ok.mp h
  obtain ⟨lower, htxid, h⟩ := Res.bind_eq_ok.mp h
  obtain ⟨_, hdigits, h⟩ := Res.bind_eq_ok.mp h
  obtain ⟨_, hmax, h⟩ := Res.bind_eq_ok.mp h
  rw [Res.ok.injEq] at h
  subst h
  rw [Res.okOr_eq_ok] at htxid
  unfold hexOf at htxid
  split_ifs at htxid with hhex
  rw [Option.some.injEq] at htxid
  rw [← htxid]
  exact toLower_of_lower (toLower_hex hhex.2)

/-- The builder makes a pledge it can decode exactly when it names its chain and
spends the outpoint. -/
theorem pledgeEvent_iff {chainId txHex : Bytes} {reward : Outpoint} {createdAt : ℕ}
    {tx : Transaction} {shape : PledgeShape} (hhex : anyHex "pledge transaction" txHex = .ok txHex)
    (htx : txOf Fields txHex = some tx) (hshape : pledgeShape tx = .ok shape)
    (hchain : shape.chainId = chainId) :
    (∃ u, pledgeEvent Fields chainId reward txHex createdAt = .ok u) ↔ Spends tx reward := by
  obtain ⟨i, peg, marker, script, hin, -⟩ := pledgeShape_ok hshape
  obtain ⟨raw, hraw, hde⟩ := Option.bind_eq_some_iff.mp htx
  have hbuild : pledgeEvent Fields chainId reward txHex createdAt =
      (Res.refuseIf (i.previousOutput.vout != reward.vout ||
          hashText i.previousOutput.txid != toLower reward.txid)
        (.disagree tagD reward.text (hashText i.previousOutput.txid ++
          0x3a :: decimalText i.previousOutput.vout.toNat)) >>= fun _ =>
      .ok ⟨[], createdAt, kindPegRecord, [[tagChain, chainId], [tagD, reward.text]], txHex⟩) := by
    unfold pledgeEvent
    rw [hhex, Res.ok_bind, hraw, Res.expect_some, Res.ok_bind, hde, Res.okOr_some, Res.ok_bind,
      hshape]
    dsimp only
    rw [hchain, bne_self_eq_false, Res.refuseIf_false, Res.ok_bind, hin]
    rfl
  rw [hbuild]
  constructor
  · rintro ⟨u, hu⟩
    obtain ⟨_, hagree, -⟩ := Res.bind_eq_ok.mp hu
    rw [Res.refuseIf_eq_ok, Bool.or_eq_false_iff, bne_eq_false_iff_eq, bne_eq_false_iff_eq] at hagree
    exact ⟨i, hin, hagree.1, hagree.2⟩
  · rintro ⟨j, hj, hvout, htxid⟩
    rw [hin, List.cons.injEq] at hj
    obtain ⟨rfl, -⟩ := hj
    rw [hvout, htxid, bne_self_eq_false, bne_self_eq_false, Bool.or_false, Res.refuseIf_false,
      Res.ok_bind]
    exact ⟨_, rfl⟩

/-- What the builder made. -/
theorem pledgeEvent_ok {chainId txHex : Bytes} {reward : Outpoint} {createdAt : ℕ}
    {u : UnsignedEvent} (h : pledgeEvent Fields chainId reward txHex createdAt = .ok u) :
    ∃ lower tx shape, anyHex "pledge transaction" txHex = .ok lower ∧ txOf Fields lower = some tx ∧
      pledgeShape tx = .ok shape ∧ shape.chainId = chainId ∧ Spends tx reward ∧
      u = ⟨[], createdAt, kindPegRecord, [[tagChain, chainId], [tagD, reward.text]], lower⟩ := by
  unfold pledgeEvent at h
  obtain ⟨lower, hlower, h⟩ := Res.bind_eq_ok.mp h
  obtain ⟨raw, hraw, h⟩ := Res.bind_eq_ok.mp h
  obtain ⟨tx, htx, h⟩ := Res.bind_eq_ok.mp h
  rw [Res.okOr_eq_ok] at htx
  have hof := txOf_of_expect hraw htx
  split at h
  · cases h
  · cases h
  · rename_i shape hshape
    obtain ⟨_, hchain, h⟩ := Res.bind_eq_ok.mp h
    obtain ⟨spent, hspent, h⟩ := Res.bind_eq_ok.mp h
    obtain ⟨_, hagree, h⟩ := Res.bind_eq_ok.mp h
    rw [Res.refuseIf_eq_ok, bne_eq_false_iff_eq] at hchain
    rw [Res.refuseIf_eq_ok, Bool.or_eq_false_iff, bne_eq_false_iff_eq, bne_eq_false_iff_eq] at hagree
    obtain ⟨i, peg, marker, script, hin, -⟩ := pledgeShape_ok hshape
    rw [hin] at hspent
    change (Res.ok i.previousOutput : Res EventError OutPoint) = .ok spent at hspent
    rw [Res.ok.injEq] at hspent
    rw [← hspent] at hagree
    rw [Res.ok.injEq] at h
    subst h
    exact ⟨lower, tx, shape, hlower, hof, hshape, hchain, ⟨i, hin, hagree.1, hagree.2⟩, rfl⟩

/-- **What the builder makes is read back**, whoever signed it. -/
theorem parseRecord_pledgeEvent {chainId txHex : Bytes} {reward : Outpoint} {createdAt : ℕ}
    {u : UnsignedEvent} {ev : Event}
    (h : pledgeEvent Fields chainId reward txHex createdAt = .ok u) (hkind : ev.kind = u.kind)
    (htags : ev.tags = u.tags) (hcontent : ev.content = u.content) :
    ∃ p, parseRecord Fields ev = .ok (.pledge p) ∧ p.chainId = chainId ∧
      p.outpoint = ⟨toLower reward.txid, reward.vout⟩ ∧
      anyHex "pledge transaction" txHex = .ok p.txHex := by
  obtain ⟨lower, tx, shape, hlower, hof, hshape, hchain, ⟨i, hin, hvout, htxid⟩, rfl⟩ :=
    pledgeEvent_ok h
  obtain ⟨hne, hlen, hlow, -⟩ := anyHex_spec hlower
  have hhex := all_hex_of_lower hlow
  have htxlen : reward.txid.length = 64 := by
    rw [← length_toLower, ← htxid, length_hashText]
  have htxhex : reward.txid.all isHexDigit = true := by
    have hall := hashText_lower i.previousOutput.txid
    rw [htxid, List.all_eq_true] at hall
    rw [List.all_eq_true]
    intro b hb
    exact isHexDigit_of_lowerByte (hall _ (List.mem_map_of_mem hb))
  have hbrace : lower.head? ≠ some 0x7b := by
    intro hh
    obtain ⟨tl, rfl⟩ : ∃ tl, lower = 0x7b :: tl := by
      cases lower with
      | nil => cases hh
      | cons a tl =>
        rw [List.head?_cons, Option.some.injEq] at hh
        exact ⟨tl, by rw [hh]⟩
    rw [List.all_cons, Bool.and_eq_true] at hhex
    exact absurd hhex.1 (by decide)
  have hd : firstTag tagD ev.tags = some reward.text := by
    rw [htags]
    rfl
  have hc : firstTag tagChain ev.tags = some chainId := by
    rw [htags]
    rfl
  have hpledge : IsPledge Fields ev ⟨toLower reward.txid, reward.vout⟩ lower tx shape := by
    refine ⟨⟨reward.text, hd, Outpoint.parse_text htxlen htxhex⟩, ?_, ?_, hof, hshape, ?_⟩
    · rw [hcontent, trim_hex hhex]
      exact hbrace
    · rw [hcontent, trim_hex hhex]
      exact anyHex_again hne hlen hlow
    · intro c hcc
      rw [hc, Option.some.injEq] at hcc
      rw [← hcc, hchain]
  refine ⟨_, parseRecord_of_isPledge hkind hpledge, hchain, rfl, hlower⟩

/-- Where the event is a pledge, its input spends the outpoint `d` names. -/
def SpendsNamed (Fields : Type) [RecordCodec Fields] (ev : Event) : Prop :=
  ∀ o txHex tx shape, IsPledge Fields ev o txHex tx shape → Spends tx o

theorem IsPledge.unique {ev : Event} {o o' : Outpoint} {txHex txHex' : Bytes}
    {tx tx' : Transaction} {shape shape' : PledgeShape}
    (h : IsPledge Fields ev o txHex tx shape)
    (h' : IsPledge Fields ev o' txHex' tx' shape') : o = o' ∧ tx = tx' := by
  obtain ⟨⟨d, hd, hparse⟩, -, htx, hof, -⟩ := h
  obtain ⟨⟨d', hd', hparse'⟩, -, htx', hof', -⟩ := h'
  rw [hd, Option.some.injEq] at hd'
  rw [← hd', hparse, Res.ok.injEq] at hparse'
  rw [htx, Res.ok.injEq] at htx'
  rw [← htx', hof, Option.some.injEq] at hof'
  exact ⟨hparse', hof'⟩

/-- A pledge that was read is one the builder makes when its input spends its
outpoint. -/
theorem built_iff_spends {ev : Event} {o : Outpoint} {txHex : Bytes} {tx : Transaction}
    {shape : PledgeShape} {createdAt : ℕ}
    (h : IsPledge Fields ev o txHex tx shape) :
    (∃ u, pledgeEvent Fields shape.chainId o txHex createdAt = .ok u) ↔ Spends tx o := by
  obtain ⟨-, -, htx, hof, hshape, -⟩ := h
  obtain ⟨hne, hlen, hlow, -⟩ := anyHex_spec htx
  exact pledgeEvent_iff (anyHex_again hne hlen hlow) hof hshape rfl

/-- The marker of a pledge that was read names its payee to the core. -/
theorem pledge_marker {ev : Event} {p : Pledge} (h : parseRecord Fields ev = .ok (.pledge p)) :
    ∃ tx peg marker script, txOf Fields p.txHex = some tx ∧ tx.output = [peg, marker] ∧
      parsePegMarker marker.scriptPubkey p.chainId = some script ∧
      p.payeeScript = hexEncode script := by
  obtain ⟨tx, shape, ⟨-, -, -, hof, hshape, -⟩, hchain, hpayee⟩ := parseRecord_pledge h
  obtain ⟨i, peg, marker, script, -, hout, hdata, hlen, hkey, hscript, -⟩ := pledgeShape_ok hshape
  rw [hchain] at hdata
  exact ⟨tx, peg, marker, script, hof, hout, marker_names_payee hdata rfl hlen hkey,
    by rw [← hpayee, hscript]⟩

/-- **What is read as a pledge and what is built as one.** The builder makes what
the reader takes exactly when the input spends the outpoint `d` names; what the
builder makes is read back, whoever signed it; and the core reads the payee of
every pledge that was read. -/
theorem pledge_read_iff (ev : Event) (hkind : ev.kind = kindPegRecord) :
    ((∀ p createdAt, parseRecord Fields ev = .ok (.pledge p) →
        ∃ u, pledgeEvent Fields p.chainId p.outpoint p.txHex createdAt = .ok u) ↔
      SpendsNamed Fields ev) ∧
    (∀ chainId reward txHex createdAt u,
      pledgeEvent Fields chainId reward txHex createdAt = .ok u → ev.tags = u.tags →
      ev.content = u.content →
        ∃ p, parseRecord Fields ev = .ok (.pledge p) ∧ p.chainId = chainId ∧
          p.outpoint = ⟨toLower reward.txid, reward.vout⟩ ∧
          anyHex "pledge transaction" txHex = .ok p.txHex) ∧
    (∀ p, parseRecord Fields ev = .ok (.pledge p) →
      ∃ tx peg marker script, txOf Fields p.txHex = some tx ∧ tx.output = [peg, marker] ∧
        parsePegMarker marker.scriptPubkey p.chainId = some script ∧
        p.payeeScript = hexEncode script) := by
  refine ⟨⟨?_, ?_⟩, ?_, fun p hp => pledge_marker hp⟩
  · intro hall o txHex tx shape hpledge
    exact (built_iff_spends hpledge).mp (hall _ 0 (parseRecord_of_isPledge hkind hpledge))
  · intro hspends p createdAt hp
    obtain ⟨tx, shape, hpledge, hchain, -⟩ := parseRecord_pledge hp
    rw [← hchain]
    exact (built_iff_spends hpledge).mpr (hspends _ _ _ _ hpledge)
  · intro chainId reward txHex createdAt u hu htags hcontent
    have hu' := hu
    obtain ⟨lower, tx, shape, -, -, -, -, -, rfl⟩ := pledgeEvent_ok hu'
    exact parseRecord_pledgeEvent hu hkind htags hcontent

end

/-! ### A sample -/

/-- The records over one known transaction. -/
inductive SampleFields
  | empty

def samplePayee : Bytes := 0x51 :: 0x20 :: List.replicate 32 7

/-- A pledge of output 0 of transaction 1 to the chain `s:a`. -/
def samplePledgeTx : Transaction :=
  ⟨2, 150, [⟨⟨1, 0⟩, [], 0xfffffffe, []⟩],
    [⟨4999000000, 0x51 :: 0x20 :: List.replicate 32 9⟩,
      ⟨0, 0x6a :: 44 :: (pegTag ++ (ascii ['s', ':', 'a'] ++ 0x3a :: samplePayee))⟩]⟩

instance : RecordCodec SampleFields where
  deserialize b := if b = serializeTx samplePledgeTx then some samplePledgeTx else none
  fromStr _ := .malformed

/-- The sample's event, naming an output of transaction 1. -/
def samplePledge (vout : UInt32) : Event :=
  ⟨⟨hexEncode (List.replicate 32 3), 0, kindPegRecord,
      [[tagD, Outpoint.text ⟨hashText 1, vout⟩]], hexEncode (serializeTx samplePledgeTx)⟩,
    hexEncode (List.replicate 32 4), hexEncode (List.replicate 64 5)⟩

theorem samplePledgeTx_shape : pledgeShape samplePledgeTx =
    .ok ⟨ascii ['s', ':', 'a'], hexEncode samplePayee, 4999000000,
      hexEncode (0x51 :: 0x20 :: List.replicate 32 9), 150⟩ := by
  decide

theorem samplePledge_is (vout : UInt32) :
    IsPledge SampleFields (samplePledge vout) ⟨hashText 1, vout⟩
      (hexEncode (serializeTx samplePledgeTx)) samplePledgeTx
      ⟨ascii ['s', ':', 'a'], hexEncode samplePayee, 4999000000,
        hexEncode (0x51 :: 0x20 :: List.replicate 32 9), 150⟩ := by
  have hlow := hexEncode_lower (serializeTx samplePledgeTx)
  have hhex := all_hex_of_lower hlow
  have hlen : (hexEncode (serializeTx samplePledgeTx)).length % 2 = 0 := by
    rw [length_hexEncode, Nat.mul_mod_right]
  have hhead : (hexEncode (serializeTx samplePledgeTx)).head? = some 0x30 := rfl
  have hne : hexEncode (serializeTx samplePledgeTx) ≠ [] := by
    intro h
    rw [h] at hhead
    cases hhead
  have htxid : (hashText 1).all isHexDigit = true := all_hex_of_lower (hashText_lower 1)
  have hparse : Outpoint.parse (Outpoint.text ⟨hashText 1, vout⟩) = .ok ⟨hashText 1, vout⟩ := by
    rw [Outpoint.parse_text (length_hashText 1) htxid, toLower_of_lower (hashText_lower 1)]
  refine ⟨⟨_, rfl, hparse⟩, ?_, ?_, ?_, samplePledgeTx_shape, fun c hc => by cases hc⟩
  · unfold samplePledge
    rw [trim_hex hhex, hhead]
    decide
  · unfold samplePledge
    rw [trim_hex hhex]
    exact anyHex_again hne hlen hlow
  · unfold txOf
    rw [hexDecode_hexEncode, Option.bind_some]
    exact if_pos rfl

/-- A pledge whose `d` names another output than its input spends is read, and
the builder makes no such pledge. -/
theorem pledge_elsewhere : ∃ p, (samplePledge 1).kind = kindPegRecord ∧
    parseRecord SampleFields (samplePledge 1) = .ok (.pledge p) ∧
    ∀ createdAt, ¬∃ u, pledgeEvent SampleFields p.chainId p.outpoint p.txHex createdAt = .ok u := by
  refine ⟨_, rfl, parseRecord_of_isPledge rfl (samplePledge_is 1), ?_⟩
  intro createdAt hbuilt
  obtain ⟨i, hin, hvout, -⟩ := (built_iff_spends (samplePledge_is 1)).mp hbuilt
  unfold samplePledgeTx at hin
  rw [List.cons.injEq] at hin
  rw [← hin.1] at hvout
  exact absurd hvout (by decide)

theorem pledge_read_sample : ∃ p u, parseRecord SampleFields (samplePledge 0) = .ok (.pledge p) ∧
    pledgeEvent SampleFields p.chainId p.outpoint p.txHex 7 = .ok u := by
  have hpledge := samplePledge_is 0
  have hspends : SpendsNamed SampleFields (samplePledge 0) := by
    intro o txHex tx shape h
    obtain ⟨rfl, rfl⟩ := h.unique hpledge
    exact ⟨_, rfl, rfl, (toLower_of_lower (hashText_lower 1)).symm⟩
  have hread := parseRecord_of_isPledge (rfl : (samplePledge 0).kind = kindPegRecord) hpledge
  obtain ⟨u, hu⟩ := (pledge_read_iff (samplePledge 0) rfl).1.mpr hspends _ 7 hread
  exact ⟨_, u, hread, hu⟩

end Nostr

end Sidestr
