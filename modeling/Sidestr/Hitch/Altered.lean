/-
# What a mirror may alter

`read_block` checks a block's solution, which signs a root computed over the
block's txids, and `apply` checks the header's hash against the index. Neither
compares the header's own merkle root with the transactions, nor the witness
commitment with the witnesses. So two tails taken for one index need not hold
the same transactions: they do just when the second tail's blocks, too, are
bound by their headers and list as many transactions.

What hashes must not do is collide, on the two tails at hand.

Key definitions: `Contents.Sealed`, `CollisionFree`, `listed`.
Key theorems: `sealed_signBlock`, `Contents.Sealed.eq_iff`, `fresh_contents`,
`tails_agree_iff`, `stripped_witness_taken`.
-/
import Sidestr.Core.HeaderV2
import Sidestr.Core.Rules
import Sidestr.Core.Sealing
import Sidestr.Core.Text
import Sidestr.Hitch.Follow

namespace Sidestr

namespace Follow

deriving instance DecidableEq for FollowError

/-- What a record's block says: its hash, its header's merkle root, its transactions. -/
structure Contents where
  hash : BlockHash
  root : Hash256
  txdata : List Transaction
  deriving DecidableEq

def Contents.held (c : Contents) : Held := ⟨c.hash, c.txdata⟩

def contentsOf {H : Type} [HeaderFamily H] (b : Block H) : Contents :=
  ⟨HeaderFamily.blockHash b.header, HeaderFamily.merkleRoot b.header, b.txdata⟩

/-- A transaction without its witnesses, which is what its txid hashes. -/
def bareOf (tx : Transaction) : Transaction :=
  { tx with input := tx.input.map fun i => { i with witness := [] } }

theorem eq_of_bareOf {x y : Transaction} (h : bareOf x = bareOf y)
    (hw : x.input.map TxIn.witness = y.input.map TxIn.witness) : x = y := by
  obtain ⟨version, lockTime, input, output⟩ := x
  obtain ⟨version', lockTime', input', output'⟩ := y
  simp only [bareOf, Transaction.mk.injEq] at h hw ⊢
  obtain ⟨hversion, hlock, hinput, houtput⟩ := h
  refine ⟨hversion, hlock, ?_, houtput⟩
  clear hversion hlock houtput
  induction input generalizing input' with
  | nil => exact (List.map_eq_nil_iff.mp hinput.symm).symm
  | cons i input ih =>
    cases input' with
    | nil => cases hinput
    | cons j input' =>
      simp only [List.map_cons, List.cons.injEq, TxIn.mk.injEq] at hinput hw
      obtain ⟨⟨hprev, hsig, hseq, -⟩, hrest⟩ := hinput
      obtain ⟨prev, sig, sequence, witness⟩ := i
      simp only at hprev hsig hseq hw
      rw [ih _ hw.2 hrest, hprev, hsig, hseq, hw.1]

/-- Lists whose images agree, where no two of their elements do. -/
theorem map_inj_across {α β : Type} {k : α → β} : ∀ {l l' : List α},
    (∀ x ∈ l, ∀ y ∈ l', k x = k y → x = y) → l.map k = l'.map k → l = l'
  | [], [], _, _ => rfl
  | [], _ :: _, _, h => by cases h
  | _ :: _, [], _, h => by cases h
  | x :: l, y :: l', hinj, h => by
    rw [List.map_cons, List.map_cons, List.cons.injEq] at h
    rw [hinj x (List.mem_cons_self ..) y (List.mem_cons_self ..) h.1,
      map_inj_across (fun x hx y hy => hinj x (List.mem_cons_of_mem _ hx) y
        (List.mem_cons_of_mem _ hy)) h.2]

section

variable [Bitcoin]

/-- What the witness commitment hashes. -/
def commitmentPreimage (cb : Transaction) (rest : List Transaction) : Bytes :=
  let reserved := ((cb.input.head?.bind fun i => i.witness.head?).getD []).take 32
  wireBytes (witnessRoot rest) ++ (reserved ++ List.replicate (32 - reserved.length) 0)

/-- Bound by its header: the merkle root is over its transactions, whose
coinbase commits to the witnesses with a reserved value of 32 bytes. -/
structure Contents.Sealed (c : Contents) : Prop where
  root : c.root = merkleRootOfTxs c.txdata
  witnesses : ∃ cb ∈ c.txdata.head?,
    witnessCommitmentIn cb = some (witnessCommitmentHash cb c.txdata.tail) ∧
      (cb.input.map fun i => i.witness.map List.length) = [[32]]

instance (c : Contents) : Decidable c.Sealed :=
  decidable_of_iff (c.root = merkleRootOfTxs c.txdata ∧ ∃ cb ∈ c.txdata.head?,
      witnessCommitmentIn cb = some (witnessCommitmentHash cb c.txdata.tail) ∧
        (cb.input.map fun i => i.witness.map List.length) = [[32]])
    ⟨fun h => ⟨h.1, h.2⟩, fun h => ⟨h.root, h.witnesses⟩⟩

omit [Bitcoin] in
theorem reserved_of_lengths {cb : Transaction}
    (h : (cb.input.map fun i => i.witness.map List.length) = [[32]]) :
    ∃ reserved, cb.input.map TxIn.witness = [[reserved]] ∧ reserved.length = 32 := by
  obtain ⟨i, hi, hlens⟩ := List.map_eq_singleton_iff.mp h
  obtain ⟨reserved, hw, hlen⟩ := List.map_eq_singleton_iff.mp hlens
  exact ⟨reserved, by rw [hi, List.map_singleton, hw], hlen⟩

/-- No two values hashed in the two blocks collide: headers, transactions, with
and without witnesses, trees of as many leaves, and commitments. -/
structure CollisionFree (a b : Contents) : Prop where
  header : a.hash = b.hash → a.root = b.root
  txid : ∀ x ∈ a.txdata, ∀ y ∈ b.txdata,
    Bitcoin.computeTxid x = Bitcoin.computeTxid y → bareOf x = bareOf y
  wtxid : ∀ x ∈ a.txdata, ∀ y ∈ b.txdata,
    Bitcoin.computeWtxid x = Bitcoin.computeWtxid y → x = y
  merkle : a.txdata.length = b.txdata.length →
    merkleRootOfTxs a.txdata = merkleRootOfTxs b.txdata →
      a.txdata.map Bitcoin.computeTxid = b.txdata.map Bitcoin.computeTxid
  witnessMerkle : a.txdata.length = b.txdata.length →
    witnessRoot a.txdata.tail = witnessRoot b.txdata.tail →
      a.txdata.tail.map Bitcoin.computeWtxid = b.txdata.tail.map Bitcoin.computeWtxid
  commitment : ∀ x ∈ a.txdata.head?, ∀ y ∈ b.txdata.head?,
    witnessCommitmentHash x a.txdata.tail = witnessCommitmentHash y b.txdata.tail →
      commitmentPreimage x a.txdata.tail = commitmentPreimage y b.txdata.tail

instance (a b : Contents) : Decidable (CollisionFree a b) :=
  decidable_of_iff
    ((a.hash = b.hash → a.root = b.root) ∧
      (∀ x ∈ a.txdata, ∀ y ∈ b.txdata,
        Bitcoin.computeTxid x = Bitcoin.computeTxid y → bareOf x = bareOf y) ∧
      (∀ x ∈ a.txdata, ∀ y ∈ b.txdata,
        Bitcoin.computeWtxid x = Bitcoin.computeWtxid y → x = y) ∧
      (a.txdata.length = b.txdata.length →
        merkleRootOfTxs a.txdata = merkleRootOfTxs b.txdata →
          a.txdata.map Bitcoin.computeTxid = b.txdata.map Bitcoin.computeTxid) ∧
      (a.txdata.length = b.txdata.length →
        witnessRoot a.txdata.tail = witnessRoot b.txdata.tail →
          a.txdata.tail.map Bitcoin.computeWtxid = b.txdata.tail.map Bitcoin.computeWtxid) ∧
      ∀ x ∈ a.txdata.head?, ∀ y ∈ b.txdata.head?,
        witnessCommitmentHash x a.txdata.tail = witnessCommitmentHash y b.txdata.tail →
          commitmentPreimage x a.txdata.tail = commitmentPreimage y b.txdata.tail)
    ⟨fun ⟨h1, h2, h3, h4, h5, h6⟩ => ⟨h1, h2, h3, h4, h5, h6⟩,
      fun ⟨h1, h2, h3, h4, h5, h6⟩ => ⟨h1, h2, h3, h4, h5, h6⟩⟩

/-- Equal preimages are of equal roots and reserved values. -/
theorem commitmentPreimage_inj {cb cb' : Transaction} {rest rest' : List Transaction}
    {reserved reserved' : Bytes} (hw : cb.input.map TxIn.witness = [[reserved]])
    (hw' : cb'.input.map TxIn.witness = [[reserved']]) (hlen : reserved.length = 32)
    (hlen' : reserved'.length = 32)
    (h : commitmentPreimage cb rest = commitmentPreimage cb' rest') :
    witnessRoot rest = witnessRoot rest' ∧ reserved = reserved' := by
  have hread : ∀ {cb : Transaction} {reserved : Bytes}, cb.input.map TxIn.witness = [[reserved]] →
      reserved.length = 32 → ∀ rest,
      commitmentPreimage cb rest = wireBytes (witnessRoot rest) ++ reserved := by
    intro cb reserved hw hlen rest
    obtain ⟨i, hi, hwi⟩ := List.map_eq_singleton_iff.mp hw
    unfold commitmentPreimage
    simp [hi, hwi, List.take_of_length_le hlen.le, hlen]
  rw [hread hw hlen, hread hw' hlen'] at h
  obtain ⟨hroot, hreserved⟩ := List.append_inj h (by rw [wireBytes, wireBytes, length_leBytes, length_leBytes])
  exact ⟨wireBytes_inj hroot, hreserved⟩

/-- **A block that hashes as a sealed one does holds its transactions just when
it is sealed itself and lists as many.** -/
theorem Contents.Sealed.eq_iff {a b : Contents} (hcoll : CollisionFree a b) (ha : a.Sealed)
    (hhash : a.hash = b.hash) :
    a.txdata = b.txdata ↔ b.Sealed ∧ a.txdata.length = b.txdata.length := by
  have hroots := hcoll.header hhash
  constructor
  · intro h
    exact ⟨⟨by rw [← hroots, ha.root, h], by rw [← h]; exact ha.witnesses⟩, by rw [h]⟩
  · rintro ⟨hb, hlen⟩
    -- the header's root fixes the txids
    have hids := hcoll.merkle hlen (by rw [← ha.root, ← hb.root, hroots])
    obtain ⟨cb, hcb, hcommit, hlens⟩ := ha.witnesses
    obtain ⟨cb', hcb', hcommit', hlens'⟩ := hb.witnesses
    obtain ⟨reserved, hw, hreserved⟩ := reserved_of_lengths hlens
    obtain ⟨reserved', hw', hreserved'⟩ := reserved_of_lengths hlens'
    obtain ⟨rest, hacons⟩ := List.head?_eq_some_iff.mp hcb
    obtain ⟨rest', hbcons⟩ := List.head?_eq_some_iff.mp hcb'
    rw [hacons, List.tail_cons] at hcommit
    rw [hbcons, List.tail_cons] at hcommit'
    have hin : cb ∈ a.txdata := by rw [hacons]; exact List.mem_cons_self ..
    have hin' : cb' ∈ b.txdata := by rw [hbcons]; exact List.mem_cons_self ..
    have hcbid : Bitcoin.computeTxid cb = Bitcoin.computeTxid cb' := by
      rw [hacons, hbcons, List.map_cons, List.map_cons, List.cons.injEq] at hids
      exact hids.1
    have hbare := hcoll.txid cb hin cb' hin' hcbid
    have houtput : (bareOf cb).output = (bareOf cb').output := by rw [hbare]
    -- so the coinbases carry one commitment, which fixes the witnesses
    have hhashes : witnessCommitmentHash cb rest = witnessCommitmentHash cb' rest' := by
      have hin : witnessCommitmentIn cb = witnessCommitmentIn cb' := by
        unfold witnessCommitmentIn commitmentOutputOf
        exact congrArg (fun output => (lastCommitment 0 output).map fun r => (r.2.drop 6).take 32) houtput
      rw [hin, hcommit', Option.some.injEq] at hcommit
      exact hcommit.symm
    have hpre := hcoll.commitment cb (by rw [hacons]; rfl) cb' (by rw [hbcons]; rfl)
    rw [hacons, hbcons, List.tail_cons, List.tail_cons] at hpre
    obtain ⟨hwroot, rfl⟩ := commitmentPreimage_inj hw hw' hreserved hreserved' (hpre hhashes)
    have hrest : rest = rest' := by
      have hwids := hcoll.witnessMerkle hlen
      rw [hacons, hbcons, List.tail_cons, List.tail_cons] at hwids
      refine map_inj_across (fun x hx y hy => ?_) (hwids hwroot)
      refine hcoll.wtxid x ?_ y ?_
      · rw [hacons]
        exact List.mem_cons_of_mem _ hx
      · rw [hbcons]
        exact List.mem_cons_of_mem _ hy
    rw [hacons, hbcons, hrest, eq_of_bareOf hbare (hw.trans hw'.symm)]

omit [Bitcoin] in
theorem lastCommitment_concat {o : TxOut} (h : isCommitment o.scriptPubkey = true) :
    ∀ (outs : List TxOut) (i : ℕ),
      lastCommitment i (outs ++ [o]) = some (i + outs.length, o.scriptPubkey)
  | [], i => by simp [lastCommitment, h]
  | p :: outs, i => by
    rw [List.cons_append, lastCommitment, lastCommitment_concat h outs (i + 1)]
    simp only [List.length_cons, Option.some.injEq, Prod.mk.injEq, and_true]
    omega

/-- **What is built and sealed is bound by its header.** -/
theorem sealed_sealBlock {H : Type} [HeaderFamily H]
    (hroot : ∀ (header : H) (root : Hash256) (nonce : UInt32), HeaderFamily.merkleRoot
      (HeaderFamily.setNonce (HeaderFamily.setMerkleRoot header root) nonce) = root)
    {t : BlockTemplate} {items : List Bytes} {sealed : Block H}
    (h : sealBlock (buildBlock t) items = .ok sealed) : (contentsOf sealed).Sealed := by
  obtain ⟨cb, rest, index, spk, nonce, htx, hfound, -, hsealed, hheader⟩ := sealBlock_ok h
  obtain ⟨rfl, rfl⟩ := List.cons.inj htx
  set more := pushOp (signetHeader ++ encodeWitness items).length ++
    (signetHeader ++ encodeWitness items)
  have hlen := length_displayBytes (witnessCommitment t.transactions)
  have hcommit : isCommitment
      (commitmentPrefix ++ displayBytes (witnessCommitment t.transactions)) = true := by
    unfold isCommitment
    rw [stripPrefix_append, List.length_append, hlen]
    rfl
  have hspk : spk = commitmentPrefix ++ displayBytes (witnessCommitment t.transactions) := by
    unfold commitmentOutputOf buildCoinbase at hfound
    rw [lastCommitment_concat hcommit, Option.some.injEq, Prod.mk.injEq] at hfound
    exact hfound.2.symm
  constructor
  · show HeaderFamily.merkleRoot sealed.header = merkleRootOfTxs sealed.txdata
    rw [hheader, hroot]
  · show ∃ cb ∈ sealed.txdata.head?,
      witnessCommitmentIn cb = some (witnessCommitmentHash cb sealed.txdata.tail) ∧
        (cb.input.map fun i => i.witness.map List.length) = [[32]]
    rw [hsealed]
    refine ⟨_, rfl, ?_, rfl⟩
    unfold witnessCommitmentIn
    rw [(sealedCoinbase_facts hfound more).1]
    have hcut : ((spk.take commitmentLen ++ more).drop 6).take 32 =
        displayBytes (witnessCommitment t.transactions) := by
      have hwhole : spk.take commitmentLen = spk := by
        rw [hspk]
        exact List.take_of_length_le (by rw [List.length_append, hlen]; exact le_rfl)
      rw [hwhole, hspk, List.append_assoc,
        List.drop_left' (show commitmentPrefix.length = 6 from rfl), List.take_left' hlen]
    have hhash : witnessCommitmentHash (buildCoinbase t) t.transactions =
        displayBytes (witnessCommitment t.transactions) := rfl
    exact congrArg some (hcut.trans hhash.symm)

/-! ### Two tails for one index -/

variable [Blake2b] (D : Decoders)

omit [Bitcoin] [Blake2b] in
theorem hashText_inj {a b : Hash256} (h : hashText a = hashText b) : a = b := by
  have := congrArg parseHash h
  rwa [parseHash_hashText, parseHash_hashText] at this

def contentsIn (family : Family) (bytes : Bytes) : Option Contents :=
  match family with
  | .stock => (D.stock bytes).map contentsOf
  | .blake2b => (D.blake2b bytes).map contentsOf

/-- What a producer signs is sealed, in either family. -/
theorem sealed_signBlock (t : BlockTemplate) (challenge : Bytes) (key : SecretKey) :
    (∀ sealed : Block Header, signBlock (buildBlock t) challenge key = .ok sealed →
      (contentsOf sealed).Sealed) ∧
    ∀ sealed : Block Blake2bV2Header, signBlock (buildBlock t) challenge key = .ok sealed →
      (contentsOf sealed).Sealed := by
  constructor
  · intro sealed h
    obtain ⟨_, _, h⟩ := Res.bind_eq_ok.mp h
    obtain ⟨_, _, h⟩ := Res.bind_eq_ok.mp h
    exact sealed_sealBlock (fun _ _ _ => rfl) h
  · intro sealed h
    obtain ⟨_, _, h⟩ := Res.bind_eq_ok.mp h
    obtain ⟨_, _, h⟩ := Res.bind_eq_ok.mp h
    exact sealed_sealBlock (fun _ _ _ => rfl) h

/-- The blocks of a tail that the index lists, from a height on. -/
def listed (family : Family) (index : Index) («from» : ℕ) (tail : Bytes) : List Contents :=
  match Mirror.records tail with
  | .ok recs => (recs.take (index.blocks.length - «from»)).filterMap fun r => contentsIn D family r.bytes
  | .err _ => []
  | .panic => []

variable {D}

omit [Blake2b] in
theorem readBlock_contents {H : Type} [HeaderFamily H] {decode : Bytes → Option (Block H)}
    {bytes challenge : Bytes} {height : ℕ} {hash prev : BlockHash} {txdata : List Transaction}
    (h : readBlock decode bytes challenge height = .ok (hash, prev, txdata)) :
    ∃ c, (decode bytes).map contentsOf = some c ∧ c.held = ⟨hash, txdata⟩ := by
  unfold readBlock at h
  cases hd : decode bytes with
  | none => rw [hd] at h; cases h
  | some block =>
    rw [hd] at h
    simp only at h
    cases hv : verifyBlockSolution block challenge with
    | err e => rw [hv] at h; cases h
    | panic => rw [hv] at h; cases h
    | ok good =>
      rw [hv] at h
      cases good with
      | false => cases h
      | true =>
        cases h
        exact ⟨contentsOf block, rfl, rfl⟩

theorem readIn_contents {family : Family} {bytes challenge : Bytes} {height : ℕ}
    {hash prev : BlockHash} {txdata : List Transaction}
    (h : readIn D family bytes challenge height = .ok (hash, prev, txdata)) :
    ∃ c, contentsIn D family bytes = some c ∧ c.held = ⟨hash, txdata⟩ := by
  cases family with
  | stock => exact readBlock_contents h
  | blake2b => exact readBlock_contents h

/-- Records that pass hold what they say, under the hashes the index lists. -/
theorem checkRecords_contents {f : ChainFollower} {index : Index} {«from» : ℕ}
    (hfrom : «from» ≤ f.blocks.length) : ∀ {recs : List Mirror.Record} {fresh fresh' : List Held},
    Res.foldlM (f.checkRecord D index «from») fresh recs = .ok fresh' →
    ∃ cs, (recs.filterMap fun r => contentsIn D f.family r.bytes) = cs ∧
      fresh' = fresh ++ cs.map Contents.held ∧
      (cs.map fun c => hashText c.hash) =
        ((index.blocks.drop («from» + fresh.length)).take recs.length).map IndexEntry.hash
  | [], fresh, fresh', h => by
    rw [Res.foldlM_nil, Res.ok.injEq] at h
    exact ⟨[], rfl, by rw [← h, List.map_nil, List.append_nil], rfl⟩
  | r :: recs, fresh, fresh', h => by
    obtain ⟨fresh₁, h1, h2⟩ := Res.bind_eq_ok.mp h
    obtain ⟨held, prev, e, rfl, he, hhash, hread, -⟩ := checkRecord_ok hfrom h1
    obtain ⟨c, hc, hheld⟩ := readIn_contents hread
    obtain ⟨cs, hcs, rfl, hhashes⟩ := checkRecords_contents hfrom h2
    obtain ⟨hlt, hget⟩ := List.getElem?_eq_some_iff.mp he
    have hchash : c.hash = held.hash := congrArg Held.hash hheld
    refine ⟨c :: cs, ?_, ?_, ?_⟩
    · rw [List.filterMap_cons, hc, hcs]
    · rw [List.map_cons, List.append_assoc, hheld, List.singleton_append]
    · rw [List.map_cons, hhashes, List.length_append, List.length_singleton, List.length_cons,
        List.drop_eq_getElem_cons hlt, List.take_succ_cons, List.map_cons, hget, hhash, hchash,
        Nat.add_assoc]

/-- What a tail that is taken adds, and the hashes it has. -/
theorem fresh_contents {f : ChainFollower} {index : Index} {«from» : ℕ} {tail : Bytes}
    {fresh : List Held} (h : f.fresh D index «from» tail = .ok fresh) :
    fresh = (listed D f.family index «from» tail).map Contents.held ∧
      ((listed D f.family index «from» tail).map fun c => hashText c.hash) =
        (index.blocks.drop «from»).map IndexEntry.hash := by
  unfold ChainFollower.fresh at h
  obtain ⟨_, hgap, h⟩ := Res.bind_eq_ok.mp h
  rw [Res.refuseIf_eq_ok, decide_eq_false_iff_not, not_or, Nat.not_lt, Nat.not_lt] at hgap
  dsimp only at h
  unfold listed
  cases hrecs : Mirror.records tail with
  | err e => rw [hrecs] at h; cases h
  | panic => rw [hrecs] at h; cases h
  | ok recs =>
    rw [hrecs] at h
    obtain ⟨_, hfew, h⟩ := Res.bind_eq_ok.mp h
    rw [Res.refuseIf_eq_ok, decide_eq_false_iff_not, Nat.not_lt] at hfew
    obtain ⟨cs, hcs, hfresh, hhashes⟩ := checkRecords_contents hgap.1 h
    rw [List.nil_append] at hfresh
    rw [List.length_nil, Nat.add_zero, List.length_take, min_eq_left hfew,
      List.take_of_length_le (by rw [List.length_drop])] at hhashes
    simp only
    rw [hcs]
    exact ⟨hfresh, hhashes⟩

/-- What is held once a tail is taken. -/
theorem apply_contents {f g : ChainFollower} {index : Index} {«from» : UInt32} {tail : Bytes}
    {adv : Advance} (h : ChainFollower.apply D index «from» tail f = (g, .ok adv)) :
    g.blocks = f.blocks.take «from».toNat ++
        (listed D f.family index «from».toNat tail).map Contents.held ∧
      ((listed D f.family index «from».toNat tail).map fun c => hashText c.hash) =
        (index.blocks.drop «from».toNat).map IndexEntry.hash := by
  rcases apply_cases h with ⟨-, hnone⟩ | ⟨fresh, hfresh, hcase⟩
  · exact absurd rfl (hnone adv)
  · obtain ⟨hheld, hhashes⟩ := fresh_contents hfresh
    refine ⟨?_, hhashes⟩
    rcases hcase with ⟨rfl, -, hnil, hlen⟩ | ⟨-, rfl, -⟩
    · rw [← hheld, hnil, List.append_nil, hlen, List.take_length]
    · rw [← hheld]
      rfl

omit [Blake2b] in
/-- Blocks pairwise of one hash, the first ones sealed, hold the same just when
the others are sealed and list as many transactions. -/
theorem held_iff : ∀ {as bs : List Contents}, as.map Contents.hash = bs.map Contents.hash →
    (∀ c ∈ as, c.Sealed) → (∀ p ∈ as.zip bs, CollisionFree p.1 p.2) →
    (as.map Contents.held = bs.map Contents.held ↔ (∀ c ∈ bs, c.Sealed) ∧
      (as.map fun c => c.txdata.length) = bs.map fun c => c.txdata.length)
  | [], [], _, _, _ => by simp
  | [], _ :: _, h, _, _ => by cases h
  | _ :: _, [], h, _, _ => by cases h
  | a :: as, b :: bs, h, hsealed, hcoll => by
    rw [List.map_cons, List.map_cons, List.cons.injEq] at h
    have hone := Contents.Sealed.eq_iff (hcoll (a, b) (List.mem_cons_self ..))
      (hsealed a (List.mem_cons_self ..)) h.1
    have hrest := held_iff h.2 (fun c hc => hsealed c (List.mem_cons_of_mem _ hc))
      fun p hp => hcoll p (List.mem_cons_of_mem _ hp)
    have hheld : a.held = b.held ↔ a.txdata = b.txdata := by
      rw [Contents.held, Contents.held, Held.mk.injEq, h.1, eq_self_iff_true, true_and]
    simp only [List.map_cons, List.cons.injEq, List.forall_mem_cons]
    rw [hheld, hone, hrest]
    tauto

/-- **What binds a sealed block.** When a tail of sealed blocks is taken, another
tail taken for the same index leaves the same blocks held just when its blocks
are bound by their headers too and list as many transactions. -/
theorem tails_agree_iff (D : Decoders) {f g g' : ChainFollower} {index : Index} {«from» : UInt32}
    {tail tail' : Bytes} {adv adv' : Advance}
    (h : ChainFollower.apply D index «from» tail f = (g, .ok adv))
    (h' : ChainFollower.apply D index «from» tail' f = (g', .ok adv'))
    (hsealed : ∀ c ∈ listed D f.family index «from».toNat tail, c.Sealed)
    (hcoll : ∀ p ∈ (listed D f.family index «from».toNat tail).zip
      (listed D f.family index «from».toNat tail'), CollisionFree p.1 p.2) :
    g.blocks = g'.blocks ↔ (∀ c ∈ listed D f.family index «from».toNat tail', c.Sealed) ∧
      ((listed D f.family index «from».toNat tail).map fun c => c.txdata.length) =
        (listed D f.family index «from».toNat tail').map fun c => c.txdata.length := by
  obtain ⟨hheld, hhashes⟩ := apply_contents h
  obtain ⟨hheld', hhashes'⟩ := apply_contents h'
  have hhash : (listed D f.family index «from».toNat tail).map Contents.hash =
      (listed D f.family index «from».toNat tail').map Contents.hash := by
    have htexts := hhashes.trans hhashes'.symm
    refine map_inj_across (k := hashText) (fun x _ y _ hxy => hashText_inj hxy) ?_
    rw [List.map_map, List.map_map]
    exact htexts
  rw [hheld, hheld', List.append_cancel_left_eq]
  exact held_iff hhash hsealed hcoll

end

/-! ### A stripped witness -/

section

attribute [local instance] sampleBitcoin sampleBlake2b

/-- A spend whose witness reveals a preimage. -/
def samplePreimageSpend : Transaction :=
  ⟨2, 0, [⟨⟨7, 0⟩, [], 0, [List.replicate 32 0x70]⟩], [⟨1000, [0x51]⟩]⟩

/-- A block with it, sealed for the sample's challenge. -/
def samplePaidBlock : Option (Block Header) :=
  match (do
    let genesis ← buildGenesisFor sampleDoc
    let challenge ← sampleDoc.challengeScript
    signBlock
      (buildBlock { height := 0, prev := 0, time := 0, transactions := [samplePreimageSpend],
                    outputs := [], bits := HeaderFamily.bits (genesis : Block Header).header, marker })
      challenge 1 : Res Error (Block Header)) with
  | .ok b => some b
  | _ => none

/-- The same block with the witnesses after the coinbase stripped. -/
def sampleStrippedBlock : Option (Block Header) :=
  samplePaidBlock.map fun b => ⟨b.header, b.txdata.take 1 ++ (b.txdata.drop 1).map bareOf⟩

/-- An empty record is read as the sealed block, any other as the stripped one. -/
def alteredDecoders : Decoders :=
  ⟨fun bytes => if bytes = [] then samplePaidBlock else sampleStrippedBlock, fun _ => none⟩

def alteredIndex : Index where
  network := []
  «from» := 0
  «to» := 0
  blocks := [⟨0, match samplePaidBlock with
    | some b => hashText (HeaderFamily.blockHash b.header)
    | none => [], 0, 0⟩]

/-- A new follower that is given the record. -/
def givenRecord (record : Bytes) : ChainFollower × Res FollowError Advance :=
  ChainFollower.apply alteredDecoders alteredIndex 0 (Mirror.encodeRecord 0 record)
    (.new .stock sampleChallenge)

/-- The stripped block is taken after the sealed one's index: what is held then
differs, since it is not sealed. -/
theorem tails_agree_iff_stripped : (givenRecord []).1.blocks = (givenRecord [0]).1.blocks ↔
    (∀ c ∈ listed alteredDecoders .stock alteredIndex 0 (Mirror.encodeRecord 0 [0]), c.Sealed) ∧
      ((listed alteredDecoders .stock alteredIndex 0 (Mirror.encodeRecord 0 [])).map
          fun c => c.txdata.length) =
        (listed alteredDecoders .stock alteredIndex 0 (Mirror.encodeRecord 0 [0])).map
          fun c => c.txdata.length := by
  have htaken : (givenRecord []).2 = .ok (.extended 0 0) := by decide +kernel
  have htaken' : (givenRecord [0]).2 = .ok (.extended 0 0) := by decide +kernel
  exact tails_agree_iff alteredDecoders (Prod.ext rfl htaken) (Prod.ext rfl htaken')
    (by decide +kernel) (by decide +kernel)

/-- Both tails are taken; one holds the preimage and the other does not. -/
theorem stripped_witness_taken :
    (givenRecord []).2 = .ok (.extended 0 0) ∧ (givenRecord [0]).2 = .ok (.extended 0 0) ∧
    ((givenRecord []).1.blocks.flatMap fun b => b.txdata.map fun tx => tx.input.map TxIn.witness) =
      [[[List.replicate 32 0]], [[List.replicate 32 0x70]]] ∧
    ((givenRecord [0]).1.blocks.flatMap fun b => b.txdata.map fun tx => tx.input.map TxIn.witness) =
      [[[List.replicate 32 0]], [[]]] ∧
    (givenRecord []).1.blocks ≠ (givenRecord [0]).1.blocks := by
  decide +kernel

end

end Follow

end Sidestr
