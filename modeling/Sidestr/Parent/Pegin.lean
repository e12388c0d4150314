/-
# Peg-ins

A signer's view of the parent (`parent.rs`, and `peg_tick` of `node.rs`). A
peg-in is a parent transaction with a marker naming this chain: the marker
gives the sidechain script, and one of the taproot outputs is the peg. A tick
scans the heights above the last scanned one, records what it finds by
transaction, and hands the recorded peg-ins that are deep enough and not
claimed to the round.

The parent is a best chain of blocks, the node's answers about it, and the peg
wallet's about addresses and transactions.

Key definitions: `parsePegMarker`, `peginAtWallet`, `scanPegins`, `newPegins`,
`claimableByTransaction`, `PeginState`, `pegTick`.
Key theorems: `scanPegins_eq`, `newPegins_covers`, `mem_claimable`,
`ParentView.judged_unique`.
-/
import Sidestr.Core.State

namespace Sidestr

namespace Parent

/-! ### Markers -/

/-- The text every peg-in marker starts with. -/
def pegTag : Bytes := ascii ['p', 'e', 'g', 'i', 'n', ':']

/-- The sidechain script a peg-in marker names for this chain: hex pairs, or
else the raw bytes. -/
def parsePegMarker (script : Bytes) (chainId : Bytes) : Option Bytes := do
  let d ← opReturnData script
  let rest ← stripPrefix (pegTag ++ chainId ++ [0x3a]) d
  if rest = [] then none
  else
    match markerText rest with
    | some text =>
      if text ≠ [] ∧ text.length % 2 = 0 ∧ text.all isHexDigit then hexDecode (toLower text)
      else some rest
    | none => some rest

/-- The first marker for this chain among a transaction's outputs. -/
def pegMarkerOf (tx : Transaction) (chainId : Bytes) : Option Bytes :=
  tx.output.findSome? fun o => parsePegMarker o.scriptPubkey chainId

/-! ### The parent -/

/-- What the peg wallet says about one parent address. -/
structure AddressView where
  owned : Bool
  change : Bool
  deriving DecidableEq

/-- The peg wallet's answers. -/
structure PegWallet where
  /-- Whether the wallet funded a transaction. -/
  fundedTransaction : Txid → Bool
  addressView : Bytes → AddressView

/-- A parent block as the view needs it. -/
structure ParentBlock where
  txs : List Transaction
  /-- The address the node reported for each output. -/
  addresses : List (List (Option Bytes))

/-- What the chain's document and the parent's network fix. -/
structure PegConfig where
  chainId : Bytes
  /-- The peg script the signer announces. -/
  announced : Option Bytes
  pegConfirmations : ℕ
  /-- A script's address on the parent's network. -/
  addressOf : Bytes → Option Bytes

/-- A peg-in found on the parent. -/
structure FoundPegin where
  txid : Txid
  vout : UInt32
  amount : UInt64
  script : Bytes
  height : ℕ
  parentAddress : Option Bytes
  deriving DecidableEq

section

variable [Bitcoin]

/-- A best chain: block `h` is at height `h`, and no transaction is in it twice. -/
structure BestChain where
  blocks : List ParentBlock
  nonempty : blocks ≠ []
  nodup : ((blocks.flatMap ParentBlock.txs).map Bitcoin.computeTxid).Nodup

/-- The height of the last block. -/
def BestChain.tip (c : BestChain) : ℕ := c.blocks.length - 1

/-! ### Scanning -/

/-- The output a peg-in pays: the announced peg script's wherever it stands,
else the wallet's first that is not its change, unless the wallet funded the
transaction, else, with no wallet, the first taproot output. -/
def pegOutput (cfg : PegConfig) (addresses : List (Option Bytes)) (wallet : Option PegWallet)
    (tx : Transaction) : Option (TxOut × ℕ) :=
  let outputs := tx.output.zipIdx
  let paying := cfg.announced.bind fun a =>
    outputs.find? fun p => isP2tr p.1.scriptPubkey && p.1.scriptPubkey == a
  paying.or (match wallet with
    | some w =>
      if w.fundedTransaction (Bitcoin.computeTxid tx) then none
      else outputs.find? fun p => isP2tr p.1.scriptPubkey &&
        ((addresses[p.2]?).join.any fun a => (w.addressView a).owned && !(w.addressView a).change)
    | none => outputs.find? fun p => isP2tr p.1.scriptPubkey)

/-- The peg-in a parent transaction makes, if any. -/
def peginAtWallet (cfg : PegConfig) (height : ℕ) (addresses : List (Option Bytes))
    (wallet : Option PegWallet) (tx : Transaction) : Option FoundPegin := do
  let script ← pegMarkerOf tx cfg.chainId
  let (peg, vout) ← pegOutput cfg addresses wallet tx
  some ⟨Bitcoin.computeTxid tx, UInt32.ofNat vout, peg.value, script, height,
    (addresses[vout]?).join⟩

omit [Bitcoin] in
/-- The addresses of transaction `i`: the node's when it reported one for each
output, else derived from the scripts. -/
def addressesOf (cfg : PegConfig) (block : ParentBlock) (i : ℕ) (tx : Transaction) :
    List (Option Bytes) :=
  ((block.addresses[i]?).filter fun a => a.length == tx.output.length).getD
    (tx.output.map fun o => cfg.addressOf o.scriptPubkey)

/-- The peg-ins of a block. -/
def scanBlock (cfg : PegConfig) (wallet : Option PegWallet) (height : ℕ) (block : ParentBlock) :
    List FoundPegin :=
  block.txs.zipIdx.filterMap fun p =>
    peginAtWallet cfg height (addressesOf cfg block p.2 p.1) wallet p.1

/-- The peg-ins of `n` blocks from a height on; none when one does not read. -/
def scanPegins (cfg : PegConfig) (wallet : Option PegWallet) (blockAt : ℕ → Option ParentBlock) :
    ℕ → ℕ → Option (List FoundPegin)
  | 0, _ => some []
  | n + 1, height => do
    let block ← blockAt height
    let rest ← scanPegins cfg wallet blockAt n (height + 1)
    some (scanBlock cfg wallet height block ++ rest)

omit [Bitcoin] in
/-- The newly discovered peg-ins, at most one a transaction, none of a known or
a claimed one. -/
def newPegins (claimedTx : Txid → Bool) : List Txid → List FoundPegin → List FoundPegin
  | _, [] => []
  | seen, p :: found =>
    if seen.contains p.txid || claimedTx p.txid then newPegins claimedTx seen found
    else p :: newPegins claimedTx (p.txid :: seen) found

omit [Bitcoin] in
/-- The claim of a peg-in. -/
def FoundPegin.request (p : FoundPegin) : ClaimRequest :=
  ⟨hashText p.txid, p.vout, p.amount, p.script⟩

omit [Bitcoin] in
/-- The peg-ins to claim: the first of each transaction, when it is deep enough
and no output of the transaction is claimed. -/
def claimableByTransaction (parentTip pegConfirmations : ℕ) (claimedTx : Txid → Bool) :
    List Txid → List FoundPegin → List ClaimRequest
  | _, [] => []
  | seen, p :: found =>
    let rest := claimableByTransaction parentTip pegConfirmations claimedTx (p.txid :: seen) found
    if !seen.contains p.txid && decide (p.height + pegConfirmations ≤ parentTip + 1) &&
        !claimedTx p.txid then p.request :: rest
    else rest

/-! ### The tick -/

/-- The scan position and what was found. A record keeps its script as hex and
reads it back. -/
structure PeginState where
  scanned : ℤ
  pegins : List FoundPegin
  deriving DecidableEq

/-- The parent as one tick sees it. -/
structure ParentView where
  chain : BestChain
  /-- The node answers for its height. -/
  reachable : Bool
  /-- The node answers for the block at a height. -/
  readable : ℕ → Bool
  wallet : Option PegWallet

namespace ParentView

variable (view : ParentView)

def blockAt (height : ℕ) : Option ParentBlock :=
  if view.readable height then view.chain.blocks[height]? else none

/-- The peg-ins of the best chain at a height. -/
def judged (cfg : PegConfig) (height : ℕ) : List FoundPegin :=
  match view.chain.blocks[height]? with
  | some block => scanBlock cfg view.wallet height block
  | none => []

end ParentView

/-- The state after scanning above it; none when the scan fails. -/
def PeginState.scan (s : PeginState) (cfg : PegConfig) (view : ParentView)
    (claimedTx : Txid → Bool) : Option PeginState :=
  let tip := view.chain.tip
  if s.scanned < tip then
    let first := (s.scanned + 1).toNat
    (scanPegins cfg view.wallet view.blockAt (tip + 1 - first) first).map fun found =>
      ⟨tip, s.pegins ++ newPegins claimedTx (s.pegins.map FoundPegin.txid) found⟩
  else some s

/-- One tick: the state, and the claims handed to the round; none when the
node does not answer for its height. -/
def pegTick (cfg : PegConfig) (view : ParentView) (claimedTx : Txid → Bool) (s : PeginState) :
    PeginState × Option (List ClaimRequest) :=
  if !view.reachable then (s, none)
  else
    let s' := (s.scan cfg view claimedTx).getD s
    (s', some (claimableByTransaction view.chain.tip cfg.pegConfirmations claimedTx [] s'.pegins))

/-! ### What they find -/

/-- A scan that reads every block finds the peg-ins of every height. -/
theorem scanPegins_eq {cfg : PegConfig} {view : ParentView} : ∀ {n height : ℕ}
    {found : List FoundPegin},
    scanPegins cfg view.wallet view.blockAt n height = some found →
    found = (List.range' height n).flatMap (view.judged cfg)
  | 0, height, found, h => by
    simp only [scanPegins, Option.some.injEq] at h
    rw [← h]
    rfl
  | n + 1, height, found, h => by
    simp only [scanPegins, Option.bind_eq_bind, Option.bind_eq_some_iff] at h
    obtain ⟨block, hblock, rest, hrest, h⟩ := h
    rw [Option.some.injEq] at h
    unfold ParentView.blockAt at hblock
    split_ifs at hblock
    have hjudged : view.judged cfg height = scanBlock cfg view.wallet height block := by
      unfold ParentView.judged
      rw [hblock]
    rw [← h, List.range'_succ, List.flatMap_cons, hjudged, scanPegins_eq hrest]

omit [Bitcoin] in
/-- What was found is claimed, known by its transaction, or new. -/
theorem newPegins_covers {p : FoundPegin} (claimedTx : Txid → Bool) (seen : List Txid) :
    ∀ {found : List FoundPegin}, p ∈ found → claimedTx p.txid = true ∨ p.txid ∈ seen ∨
      ∃ q ∈ newPegins claimedTx seen found, q.txid = p.txid
  | q :: found, h => by
    unfold newPegins
    split_ifs with hskip
    · rw [Bool.or_eq_true, List.contains_iff_mem] at hskip
      rcases List.mem_cons.mp h with rfl | h
      · exact hskip.elim (fun hs => .inr (.inl hs)) .inl
      · exact newPegins_covers claimedTx seen h
    · rcases List.mem_cons.mp h with rfl | h
      · exact .inr (.inr ⟨p, List.mem_cons_self, rfl⟩)
      · rcases newPegins_covers claimedTx (q.txid :: seen) h with hc | hs | ⟨r, hr, he⟩
        · exact .inl hc
        · rcases List.mem_cons.mp hs with he | hs
          · exact .inr (.inr ⟨q, List.mem_cons_self, he.symm⟩)
          · exact .inr (.inl hs)
        · exact .inr (.inr ⟨r, List.mem_cons_of_mem _ hr, he⟩)

omit [Bitcoin] in
theorem mem_of_mem_newPegins {claimedTx : Txid → Bool} {p : FoundPegin} :
    ∀ {found : List FoundPegin} {seen : List Txid}, p ∈ newPegins claimedTx seen found → p ∈ found
  | q :: found, seen, h => by
    unfold newPegins at h
    split_ifs at h
    · exact List.mem_cons_of_mem _ (mem_of_mem_newPegins h)
    · rcases List.mem_cons.mp h with rfl | h
      · exact List.mem_cons_self
      · exact List.mem_cons_of_mem _ (mem_of_mem_newPegins h)

omit [Bitcoin] in
/-- A claim is one of a recorded peg-in deep enough below the tip. -/
theorem mem_claimable {tip need : ℕ} {claimedTx : Txid → Bool} {c : ClaimRequest} :
    ∀ {found : List FoundPegin} {seen : List Txid},
    c ∈ claimableByTransaction tip need claimedTx seen found →
    ∃ p ∈ found, c = p.request ∧ p.height + need ≤ tip + 1 ∧ claimedTx p.txid = false
  | q :: found, seen, h => by
    unfold claimableByTransaction at h
    dsimp only at h
    split_ifs at h with hq
    · rcases List.mem_cons.mp h with rfl | h
      · simp only [Bool.and_eq_true, decide_eq_true_eq, Bool.not_eq_true'] at hq
        exact ⟨q, List.mem_cons_self, rfl, hq.1.2, hq.2⟩
      · obtain ⟨p, hp, hrest⟩ := mem_claimable h
        exact ⟨p, List.mem_cons_of_mem _ hp, hrest⟩
    · obtain ⟨p, hp, hrest⟩ := mem_claimable h
      exact ⟨p, List.mem_cons_of_mem _ hp, hrest⟩

/-- A peg-in of a block is of one of its transactions. -/
theorem mem_scanBlock {cfg : PegConfig} {wallet : Option PegWallet} {height : ℕ}
    {block : ParentBlock} {p : FoundPegin} (h : p ∈ scanBlock cfg wallet height block) :
    ∃ tx i, (tx, i) ∈ block.txs.zipIdx ∧
      peginAtWallet cfg height (addressesOf cfg block i tx) wallet tx = some p := by
  obtain ⟨⟨tx, i⟩, hmem, hp⟩ := List.mem_filterMap.mp h
  exact ⟨tx, i, hmem, hp⟩

/-- What a peg-in records of its transaction. -/
theorem peginAtWallet_ok {cfg : PegConfig} {height : ℕ} {addresses : List (Option Bytes)}
    {wallet : Option PegWallet} {tx : Transaction} {p : FoundPegin}
    (h : peginAtWallet cfg height addresses wallet tx = some p) :
    p.txid = Bitcoin.computeTxid tx ∧ p.height = height ∧
      pegMarkerOf tx cfg.chainId = some p.script ∧
      ∃ peg vout, (peg, vout) ∈ tx.output.zipIdx ∧ p.vout = UInt32.ofNat vout ∧
        p.amount = peg.value := by
  simp only [peginAtWallet, Option.bind_eq_bind, Option.bind_eq_some_iff] at h
  obtain ⟨script, hscript, ⟨peg, vout⟩, hpeg, h⟩ := h
  rw [Option.some.injEq] at h
  subst h
  refine ⟨rfl, rfl, hscript, peg, vout, ?_, rfl, rfl⟩
  unfold pegOutput at hpeg
  simp only [Option.or_eq_some_iff, Option.bind_eq_some_iff] at hpeg
  rcases hpeg with ⟨a, -, hfind⟩ | ⟨-, hrest⟩
  · exact List.mem_of_find?_eq_some hfind
  · split at hrest
    · split_ifs at hrest
      exact List.mem_of_find?_eq_some hrest
    · exact List.mem_of_find?_eq_some hrest

theorem height_of_judged {view : ParentView} {cfg : PegConfig} {height : ℕ} {p : FoundPegin}
    (h : p ∈ view.judged cfg height) : p.height = height ∧ height ≤ view.chain.tip := by
  unfold ParentView.judged at h
  split at h
  · rename_i block hblock
    obtain ⟨tx, i, -, hp⟩ := mem_scanBlock h
    have hlt := (List.getElem?_eq_some_iff.mp hblock).1
    refine ⟨(peginAtWallet_ok hp).2.1, ?_⟩
    unfold BestChain.tip
    omega
  · simp at h

/-- The ids of a best chain by block: no two blocks share one, and none repeats in a block. -/
theorem BestChain.ids_apart (c : BestChain) :
    (∀ b ∈ c.blocks, (b.txs.map Bitcoin.computeTxid).Nodup) ∧
      ∀ {i j : ℕ} {b b' : ParentBlock}, c.blocks[i]? = some b → c.blocks[j]? = some b' → i < j →
        ∀ tx ∈ b.txs, ∀ tx' ∈ b'.txs, Bitcoin.computeTxid tx ≠ Bitcoin.computeTxid tx' := by
  have hn := c.nodup
  rw [List.map_flatMap, List.nodup_flatMap] at hn
  obtain ⟨heach, hpair⟩ := hn
  refine ⟨heach, fun {i j b b'} hi hj hij tx htx tx' htx' he => ?_⟩
  obtain ⟨hi', rfl⟩ := List.getElem?_eq_some_iff.mp hi
  obtain ⟨hj', rfl⟩ := List.getElem?_eq_some_iff.mp hj
  have hdis := List.pairwise_iff_getElem.mp hpair i j hi' hj' hij
  exact hdis (List.mem_map_of_mem htx) (he ▸ List.mem_map_of_mem htx')

/-- **One peg-in a transaction.** In one best chain, two peg-ins of one txid are one. -/
theorem ParentView.judged_unique {view : ParentView} {cfg : PegConfig} {h h' : ℕ}
    {p q : FoundPegin} (hp : p ∈ view.judged cfg h) (hq : q ∈ view.judged cfg h')
    (he : p.txid = q.txid) : p = q := by
  obtain ⟨heach, hapart⟩ := view.chain.ids_apart
  unfold ParentView.judged at hp hq
  split at hp
  · rename_i b hb
    split at hq
    · rename_i b' hb'
      obtain ⟨tx, i, htx, hp⟩ := mem_scanBlock hp
      obtain ⟨tx', j, htx', hq⟩ := mem_scanBlock hq
      rw [(peginAtWallet_ok hp).1, (peginAtWallet_ok hq).1] at he
      have hmem : tx ∈ b.txs := List.mem_of_getElem? (List.mem_zipIdx_iff_getElem?.mp htx)
      have hmem' : tx' ∈ b'.txs := List.mem_of_getElem? (List.mem_zipIdx_iff_getElem?.mp htx')
      rcases lt_trichotomy h h' with hlt | rfl | hlt
      · exact absurd he (hapart hb hb' hlt tx hmem tx' hmem')
      · -- one block: the ids of its transactions are distinct, so it is one transaction
        obtain rfl := Option.some.inj (hb.symm.trans hb')
        have hi := List.mem_zipIdx_iff_getElem?.mp htx
        have hj := List.mem_zipIdx_iff_getElem?.mp htx'
        have hi' := (List.getElem?_eq_some_iff.mp hi).1
        have hnodup := heach b (List.mem_of_getElem? hb)
        have hij : i = j := by
          refine (List.getElem?_inj (by simpa using hi') hnodup).mp ?_
          rw [List.getElem?_map, List.getElem?_map, hi, hj]
          exact congrArg some he
        subst hij
        obtain rfl := Option.some.inj (hi.symm.trans hj)
        exact Option.some.inj (hp.symm.trans hq)
      · exact absurd he.symm (hapart hb' hb hlt tx' hmem' tx hmem)
    · simp at hq
  · simp at hp

end

end Parent

end Sidestr
