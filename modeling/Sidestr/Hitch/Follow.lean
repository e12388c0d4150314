/-
# The chain watch

An agent follows a chain it does not produce (`follow.rs`): it reads an index
and the records behind it from a source it does not trust, keeps the blocks
that decode, hash as the index says, link and carry a solution, and measures
what a replaced tail undid. Over any calls, with any indexes, tails and
positions, what it answers is read off the blocks it holds.

Key definitions: `ChainFollower.plan`, `ChainFollower.truncate`,
`ChainFollower.apply`, `Reached`, `Advance.Exact`.
Key theorems: `checkRecord_ok`, `fresh_ok`, `apply_cases`, `reached_sound`,
`follower_describes`.
-/
import Sidestr.Core.HeaderV2
import Sidestr.Core.Mirror
import Sidestr.Lib.Method
import Mathlib.Data.List.TakeWhile

namespace Sidestr

namespace Follow

/-! ### The follower -/

/-- What the next read of a source should be. -/
inductive Plan
  | upToDate
  /-- The source is shorter and agrees up to `len` blocks. -/
  | truncate (len : ℕ)
  /-- Read from byte `offset`, then apply from height `from`. -/
  | fetch («from» offset : ℕ)
  deriving DecidableEq

/-- What a read changed. -/
inductive Advance
  | unchanged
  | extended («from» «to» : ℕ)
  /-- Held blocks were replaced from `fork` on. -/
  | reorg (fork depth : ℕ) («to» : Option ℕ) (undone : List Txid)
  deriving DecidableEq

structure Held where
  hash : BlockHash
  txdata : List Transaction
  deriving DecidableEq

/-- Why a source is refused. -/
inductive FollowError
  | position (height i : ℕ)
  | gap («from» : ℕ)
  | records (e : DiskError)
  | fewRecords (held «from» want : ℕ)
  | recordHeight (i height want : ℕ)
  | encoding (height : ℕ)
  | solution (height : ℕ)
  | hash (height : ℕ) (hash : BlockHash) (index : Bytes)
  | notLinked (height : ℕ)

/-- A chain followed from its genesis: hashes, transactions, spends. -/
structure ChainFollower where
  family : Family
  challenge : Bytes
  blocks : List Held
  txs : Map Txid (ℕ × ℕ)
  spends : Map OutPoint (Txid × ℕ)

/-- How the two families' blocks are decoded. -/
structure Decoders where
  stock : Bytes → Option (Block Header)
  blake2b : Bytes → Option (Block Blake2bV2Header)

/-- A transaction in a held block. -/
structure Place where
  height : ℕ
  index : ℕ
  tx : Transaction

/-- Every transaction of the blocks, oldest first. -/
def places (blocks : List Held) : List Place :=
  blocks.zipIdx.flatMap fun b => b.1.txdata.zipIdx.map fun tx => ⟨b.2, tx.2, tx.1⟩

theorem mem_places {blocks : List Held} {p : Place} :
    p ∈ places blocks ↔ ∃ b, blocks[p.height]? = some b ∧ b.txdata[p.index]? = some p.tx := by
  unfold places
  rw [List.mem_flatMap]
  constructor
  · rintro ⟨⟨b, h⟩, hb, hp⟩
    obtain ⟨⟨tx, i⟩, htx, rfl⟩ := List.mem_map.mp hp
    exact ⟨b, List.mem_zipIdx_iff_getElem?.mp hb, List.mem_zipIdx_iff_getElem?.mp htx⟩
  · rintro ⟨b, hb, htx⟩
    exact ⟨(b, p.height), List.mem_zipIdx_iff_getElem?.mpr hb,
      List.mem_map.mpr ⟨(p.tx, p.index), List.mem_zipIdx_iff_getElem?.mpr htx, rfl⟩⟩

/-- A batch of insertions is looked up among its keys. -/
theorem Map.mem_insertAll {K V : Type} [DecidableEq K] {k : K} : ∀ {kvs : List (K × V)}
    {m : Map K V}, k ∈ Map.insertAll kvs m ↔ k ∈ kvs.map Prod.fst ∨ k ∈ m
  | [], m => by simp
  | kv :: kvs, m => by
    rw [Map.insertAll_cons, Map.mem_insertAll, Finmap.mem_insert, List.map_cons, List.mem_cons]
    tauto

/-- A batch of distinct keys is looked up exactly. -/
theorem Map.lookup_insertAll_nodup {K V : Type} [DecidableEq K] {k : K} {v : V} :
    ∀ {kvs : List (K × V)}, (kvs.map Prod.fst).Nodup →
    ((Map.insertAll kvs ∅).lookup k = some v ↔ (k, v) ∈ kvs)
  | [], _ => by simp
  | kv :: kvs, h => by
    rw [List.map_cons, List.nodup_cons] at h
    rw [Map.insertAll_cons, Map.lookup_insertAll, List.mem_cons,
      ← Map.lookup_insertAll_nodup h.2]
    by_cases hk : k = kv.1
    · subst hk
      rw [Map.lookup_insertAll_of_notMem h.1, Finmap.lookup_empty, Option.none_or,
        Finmap.lookup_insert, Option.some.injEq]
      constructor
      · rintro rfl
        exact .inl rfl
      · rintro (heq | hc)
        · rw [← heq]
        · cases hc
    · rw [Finmap.lookup_insert_of_ne _ hk, Finmap.lookup_empty, Option.or_none]
      constructor
      · exact .inr
      · rintro (heq | hc)
        · exact absurd (congrArg Prod.fst heq) hk
        · exact hc

section

variable [Bitcoin]

/-- The ids of the transactions of the blocks. -/
def txidsOf (blocks : List Held) : List Txid :=
  blocks.flatMap fun b => b.txdata.map Bitcoin.computeTxid

def txEntries (blocks : List Held) : List (Txid × (ℕ × ℕ)) :=
  (places blocks).map fun p => (Bitcoin.computeTxid p.tx, (p.height, p.index))

/-- Every outpoint a transaction other than a coinbase spends. -/
def spendEntries (blocks : List Held) : List (OutPoint × (Txid × ℕ)) :=
  (places blocks).flatMap fun p =>
    if isCoinbase p.tx then []
    else p.tx.input.map fun i => (i.previousOutput, (Bitcoin.computeTxid p.tx, p.height))

namespace ChainFollower

/-- A follower that holds no blocks yet. -/
def new (family : Family) (challenge : Bytes) : ChainFollower := ⟨family, challenge, [], ∅, ∅⟩

def height (f : ChainFollower) : Option ℕ :=
  if f.blocks = [] then none else some (f.blocks.length - 1)

/-- A transaction in a held block, and that block's height. -/
def findTx (f : ChainFollower) (txid : Txid) : Res FollowError (Option (ℕ × Transaction)) :=
  match f.txs.lookup txid with
  | none => .ok none
  | some (h, i) => do
    let b ← Res.expect f.blocks[h]?
    let tx ← Res.expect b.txdata[i]?
    .ok (some (h, tx))

/-- The transaction that spends an outpoint in a held block. -/
def spender (f : ChainFollower) (op : OutPoint) :
    Res FollowError (Option (Txid × ℕ × Transaction)) :=
  match f.spends.lookup op with
  | none => .ok none
  | some (txid, h) => do
    match ← f.findTx txid with
    | none => .ok none
    | some (_, tx) => .ok (some (txid, h, tx))

/-- Compare a source's index with the blocks held. -/
def plan (f : ChainFollower) (index : Index) : Res FollowError Plan := do
  match index.blocks.zipIdx.find? fun e => e.1.height.toNat != e.2 with
  | some e => .err (.position e.1.height.toNat e.2)
  | none =>
    let common := ((f.blocks.zip index.blocks).takeWhile
      fun p => hashText p.1.hash == p.2.hash).length
    match index.blocks[common]? with
    | some e => .ok (.fetch common e.offset)
    | none => if common < f.blocks.length then .ok (.truncate common) else .ok .upToDate

/-- The indexes, rebuilt from the blocks. -/
def reindex (f : ChainFollower) : ChainFollower :=
  { f with txs := Map.insertAll (txEntries f.blocks) ∅
           spends := Map.insertAll (spendEntries f.blocks) ∅ }

/-- Drop every block from height `len` on. -/
def truncate (f : ChainFollower) (len : ℕ) : ChainFollower × Advance :=
  if f.blocks.length ≤ len then (f, .unchanged)
  else
    let depth := f.blocks.length - len
    let removed := txidsOf (f.blocks.drop len)
    let f := { f with blocks := f.blocks.take len }.reindex
    (f, .reorg len depth f.height (removed.filter fun t => t ∉ f.txs))

end ChainFollower

/-! ### Taking a tail -/

variable [Blake2b] (D : Decoders)

omit [Blake2b] in
/-- A block whose solution satisfies the challenge: its hash, its parent's hash
and its transactions. -/
def readBlock {H : Type} [HeaderFamily H] (decode : Bytes → Option (Block H)) (bytes : Bytes)
    (challenge : Bytes) (height : ℕ) : Res FollowError (BlockHash × BlockHash × List Transaction) :=
  match decode bytes with
  | none => .err (.encoding height)
  | some block =>
    match verifyBlockSolution block challenge with
    | .ok true =>
      .ok (HeaderFamily.blockHash block.header, HeaderFamily.prev block.header, block.txdata)
    | .ok false => .err (.solution height)
    | .err _ => .err (.solution height)
    | .panic => .panic

/-- The same in the family of the chain. -/
def readIn (family : Family) (bytes challenge : Bytes) (height : ℕ) :
    Res FollowError (BlockHash × BlockHash × List Transaction) :=
  match family with
  | .stock => readBlock D.stock bytes challenge height
  | .blake2b => readBlock D.blake2b bytes challenge height

namespace ChainFollower

/-- One record of the tail, checked: heights are below `2 ^ 32` since the record says so. -/
def checkRecord (f : ChainFollower) (index : Index) («from» : ℕ) (fresh : List Held)
    (r : Mirror.Record) : Res FollowError (List Held) := do
  let i := fresh.length
  let height := «from» + i
  Res.refuseIf (r.height.toNat != height) (.recordHeight i r.height.toNat height)
  let entry ← Res.expect index.blocks[height]?
  let (hash, prev, txdata) ← readIn D f.family r.bytes f.challenge height
  Res.refuseIf (hashText hash != entry.hash) (.hash height hash entry.hash)
  if 0 < height then
    let below ← Res.expect (if i = 0 then f.blocks[height - 1]? else fresh[i - 1]?)
    Res.refuseIf (prev != below.hash) (.notLinked height)
    .ok (fresh ++ [⟨hash, txdata⟩])
  else .ok (fresh ++ [⟨hash, txdata⟩])

/-- The blocks of a tail: every block the index lists from `from` on. -/
def fresh (f : ChainFollower) (index : Index) («from» : ℕ) (tail : Bytes) :
    Res FollowError (List Held) := do
  Res.refuseIf (decide (f.blocks.length < «from» ∨ index.blocks.length < «from»)) (.gap «from»)
  let want := index.blocks.length - «from»
  match Mirror.records tail with
  | .err e => .err (.records e)
  | .panic => .panic
  | .ok recs => do
    Res.refuseIf (decide (recs.length < want)) (.fewRecords recs.length «from» want)
    Res.foldlM (f.checkRecord D index «from») [] (recs.take want)

/-- What blocks added on top amount to. -/
def added (f : ChainFollower) («from» : ℕ) : Advance :=
  match f.height with
  | some «to» => if «from» ≤ «to» then .extended «from» «to» else .unchanged
  | none => .unchanged

open Method

/-- Take the tail read for a fetch. -/
def apply (index : Index) («from» : UInt32) (tail : Bytes) :
    Method FollowError ChainFollower Advance := do
  let «from» := «from».toNat
  let fresh ← read fun f => f.fresh D index «from» tail
  let old ← get
  if fresh.isEmpty ∧ «from» = old.blocks.length then
    return .unchanged
  let replaced := old.blocks.length - «from»
  let removed := txidsOf (old.blocks.drop «from»)
  modify fun f => { f with blocks := f.blocks.take «from» ++ fresh }
  modify reindex
  let f ← get
  if replaced = 0 then
    return f.added «from»
  else
    return .reorg «from» replaced f.height ((removed.filter fun t => t ∉ f.txs).eraseDups)

end ChainFollower

/-- A call of the follower. -/
inductive Call
  | plan (index : Index)
  | apply (index : Index) («from» : UInt32) (tail : Bytes)
  | truncate (len : UInt32)

/-- What a call leaves. -/
def Call.run (f : ChainFollower) : Call → ChainFollower
  | .plan _ => f
  | .apply index «from» tail => (ChainFollower.apply D index «from» tail f).1
  | .truncate len => (f.truncate len.toNat).1

/-- The followers that any sequence of calls leads to. -/
inductive Reached (family : Family) (challenge : Bytes) : ChainFollower → Prop
  | new : Reached family challenge (ChainFollower.new family challenge)
  | call {f : ChainFollower} (c : Call) (h : Reached family challenge f) :
    Reached family challenge (c.run D f)

/-! ### What is held -/

/-- Each block was read with its solution verified, and links to the one below. -/
def Vouched (family : Family) (challenge : Bytes) (blocks : List Held) : Prop :=
  ∀ n held, blocks[n]? = some held → ∃ bytes prev,
    readIn D family bytes challenge n = .ok (held.hash, prev, held.txdata) ∧
      (n = 0 ∨ ∃ below, blocks[n - 1]? = some below ∧ prev = below.hash)

/-- Each block hashes as the index lists it, from a height on. -/
def Listed (index : Index) («from» : ℕ) (blocks : List Held) : Prop :=
  ∀ n held, «from» ≤ n → blocks[n]? = some held →
    ∃ e, index.blocks[n]? = some e ∧ e.hash = hashText held.hash

variable {D} {family : Family} {challenge : Bytes}

theorem Vouched.take {blocks : List Held} (h : Vouched D family challenge blocks) (k : ℕ) :
    Vouched D family challenge (blocks.take k) := by
  intro n held hn
  rw [List.getElem?_take] at hn
  split_ifs at hn with hlt
  obtain ⟨bytes, prev, hread, hlink⟩ := h n held hn
  refine ⟨bytes, prev, hread, hlink.imp_right ?_⟩
  rintro ⟨below, hbelow, hprev⟩
  refine ⟨below, ?_, hprev⟩
  rw [List.getElem?_take, if_pos (by omega)]
  exact hbelow

theorem Vouched.concat {blocks : List Held} (h : Vouched D family challenge blocks) {held : Held}
    {bytes : Bytes} {prev : BlockHash}
    (hread : readIn D family bytes challenge blocks.length = .ok (held.hash, prev, held.txdata))
    (hlink : blocks.length = 0 ∨
      ∃ below, blocks[blocks.length - 1]? = some below ∧ prev = below.hash) :
    Vouched D family challenge (blocks ++ [held]) := by
  have hkeep : ∀ {n : ℕ} {b : Held}, blocks[n]? = some b → (blocks ++ [held])[n]? = some b := by
    intro n b hb
    rw [List.getElem?_append_left (List.getElem?_eq_some_iff.mp hb).1]
    exact hb
  intro n held' hn
  by_cases hlt : n < blocks.length
  · rw [List.getElem?_append_left hlt] at hn
    obtain ⟨bytes', prev', hread', hlink'⟩ := h n held' hn
    exact ⟨bytes', prev', hread', hlink'.imp_right fun ⟨b, hb, hp⟩ => ⟨b, hkeep hb, hp⟩⟩
  · rw [List.getElem?_append_right (by omega)] at hn
    have hzero : n - blocks.length = 0 := by
      by_contra hne
      rw [List.getElem?_eq_none (by simp; omega)] at hn
      cases hn
    obtain rfl : n = blocks.length := by omega
    rw [hzero, List.getElem?_cons_zero, Option.some.injEq] at hn
    subst hn
    exact ⟨bytes, prev, hread, hlink.imp_right fun ⟨b, hb, hp⟩ => ⟨b, hkeep hb, hp⟩⟩

omit [Bitcoin] [Blake2b] in
theorem Listed.concat {index : Index} {«from» : ℕ} {blocks : List Held} {held : Held}
    (h : Listed index «from» blocks) {e : IndexEntry} (he : index.blocks[blocks.length]? = some e)
    (hhash : e.hash = hashText held.hash) : Listed index «from» (blocks ++ [held]) := by
  intro n held' hle hn
  by_cases hlt : n < blocks.length
  · rw [List.getElem?_append_left hlt] at hn
    exact h n held' hle hn
  · rw [List.getElem?_append_right (by omega)] at hn
    have hzero : n - blocks.length = 0 := by
      by_contra hne
      rw [List.getElem?_eq_none (by simp; omega)] at hn
      cases hn
    obtain rfl : n = blocks.length := by omega
    rw [hzero, List.getElem?_cons_zero, Option.some.injEq] at hn
    subst hn
    exact ⟨e, he, hhash⟩

/-- What a record that passes is. -/
theorem checkRecord_ok {f : ChainFollower} {index : Index} {«from» : ℕ} {fresh fresh' : List Held}
    {r : Mirror.Record} (hfrom : «from» ≤ f.blocks.length)
    (h : f.checkRecord D index «from» fresh r = .ok fresh') :
    ∃ held prev e, fresh' = fresh ++ [held] ∧ index.blocks[«from» + fresh.length]? = some e ∧
      e.hash = hashText held.hash ∧
      readIn D f.family r.bytes f.challenge («from» + fresh.length) =
        .ok (held.hash, prev, held.txdata) ∧
      («from» + fresh.length = 0 ∨ ∃ below,
        (f.blocks.take «from» ++ fresh)[«from» + fresh.length - 1]? = some below ∧
          prev = below.hash) := by
  unfold ChainFollower.checkRecord at h
  dsimp only at h
  obtain ⟨_, _, h⟩ := Res.bind_eq_ok.mp h
  obtain ⟨e, he, h⟩ := Res.bind_eq_ok.mp h
  obtain ⟨⟨hash, prev, txdata⟩, hread, h⟩ := Res.bind_eq_ok.mp h
  obtain ⟨_, hhash, h⟩ := Res.bind_eq_ok.mp h
  rw [Res.refuseIf_eq_ok, bne_eq_false_iff_eq] at hhash
  have hentry : index.blocks[«from» + fresh.length]? = some e := by
    cases hi : index.blocks[«from» + fresh.length]? with
    | none => rw [hi] at he; cases he
    | some x => rw [hi, Res.expect_some, Res.ok.injEq] at he; rw [he]
  by_cases hpos : 0 < «from» + fresh.length
  · rw [if_pos hpos] at h
    obtain ⟨below, hbelow, h⟩ := Res.bind_eq_ok.mp h
    obtain ⟨_, hlink, h⟩ := Res.bind_eq_ok.mp h
    rw [Res.refuseIf_eq_ok, bne_eq_false_iff_eq] at hlink
    rw [Res.ok.injEq] at h
    refine ⟨⟨hash, txdata⟩, prev, e, h.symm, hentry, hhash.symm, hread, .inr ⟨below, ?_, hlink⟩⟩
    have hlen : (f.blocks.take «from»).length = «from» := by
      rw [List.length_take]
      omega
    by_cases hi : fresh.length = 0
    · rw [if_pos hi] at hbelow
      -- the first of the tail links to the block held below it
      rw [List.getElem?_append_left (by omega), List.getElem?_take, if_pos (by omega)]
      cases hb : f.blocks[«from» + fresh.length - 1]? with
      | none => rw [hb] at hbelow; cases hbelow
      | some x => rw [hb, Res.expect_some, Res.ok.injEq] at hbelow; rw [hbelow]
    · rw [if_neg hi] at hbelow
      have hidx : «from» + fresh.length - 1 - (f.blocks.take «from»).length = fresh.length - 1 := by
        omega
      rw [List.getElem?_append_right (by omega), hidx]
      cases hb : fresh[fresh.length - 1]? with
      | none => rw [hb] at hbelow; cases hbelow
      | some x => rw [hb, Res.expect_some, Res.ok.injEq] at hbelow; rw [hbelow]
  · rw [if_neg hpos, Res.ok.injEq] at h
    exact ⟨⟨hash, txdata⟩, prev, e, h.symm, hentry, hhash.symm, hread, .inl (by omega)⟩

theorem checkRecords_length {f : ChainFollower} {index : Index} {«from» : ℕ}
    (hfrom : «from» ≤ f.blocks.length) : ∀ {recs : List Mirror.Record} {fresh fresh' : List Held},
    Res.foldlM (f.checkRecord D index «from») fresh recs = .ok fresh' →
    fresh'.length = fresh.length + recs.length
  | [], fresh, fresh', h => by
    rw [Res.foldlM_nil, Res.ok.injEq] at h
    rw [← h]
    rfl
  | r :: recs, fresh, fresh', h => by
    obtain ⟨fresh₁, h1, h2⟩ := Res.bind_eq_ok.mp h
    obtain ⟨held, -, -, rfl, -⟩ := checkRecord_ok hfrom h1
    have ih := checkRecords_length hfrom h2
    rw [List.length_append, List.length_singleton] at ih
    rw [ih, List.length_cons]
    omega

/-- **What a tail that is taken holds**: every block the index lists from there on. -/
theorem fresh_ok {f : ChainFollower} {index : Index} {«from» : ℕ} {tail : Bytes}
    {fresh : List Held} (hv : Vouched D f.family f.challenge f.blocks)
    (h : f.fresh D index «from» tail = .ok fresh) :
    «from» ≤ f.blocks.length ∧ «from» + fresh.length = index.blocks.length ∧
      Vouched D f.family f.challenge (f.blocks.take «from» ++ fresh) ∧
      Listed index «from» (f.blocks.take «from» ++ fresh) := by
  unfold ChainFollower.fresh at h
  obtain ⟨_, hgap, h⟩ := Res.bind_eq_ok.mp h
  rw [Res.refuseIf_eq_ok, decide_eq_false_iff_not, not_or, Nat.not_lt, Nat.not_lt] at hgap
  dsimp only at h
  cases hrecs : Mirror.records tail with
  | err e => rw [hrecs] at h; cases h
  | panic => rw [hrecs] at h; cases h
  | ok recs =>
    rw [hrecs] at h
    obtain ⟨_, hfew, h⟩ := Res.bind_eq_ok.mp h
    rw [Res.refuseIf_eq_ok, decide_eq_false_iff_not, Nat.not_lt] at hfew
    have hlen := checkRecords_length hgap.1 h
    rw [List.length_nil, List.length_take] at hlen
    have htake : (f.blocks.take «from»).length = «from» := by
      rw [List.length_take]
      omega
    have hkept := Res.foldlM_ok_ind
      (P := fun fresh => Vouched D f.family f.challenge (f.blocks.take «from» ++ fresh) ∧
        Listed index «from» (f.blocks.take «from» ++ fresh)) h
      ⟨by rw [List.append_nil]; exact hv.take _, ?_⟩ ?_
    · exact ⟨hgap.1, by omega, hkept⟩
    · intro n held hle hn
      rw [List.append_nil, List.getElem?_eq_none (by omega)] at hn
      cases hn
    · rintro fresh₁ r fresh₂ - ⟨hv₁, hl₁⟩ hr
      obtain ⟨held, prev, e, rfl, he, hhash, hread, hlink⟩ := checkRecord_ok hgap.1 hr
      have hlen₁ : (f.blocks.take «from» ++ fresh₁).length = «from» + fresh₁.length := by
        rw [List.length_append, htake]
      rw [← List.append_assoc]
      rw [← hlen₁] at he hread hlink
      exact ⟨hv₁.concat hread hlink, hl₁.concat he hhash⟩

/-- The blocks held from a height on, replaced by others. -/
def ChainFollower.replace (f : ChainFollower) («from» : ℕ) (fresh : List Held) : ChainFollower :=
  { f with blocks := f.blocks.take «from» ++ fresh }.reindex

omit [Blake2b] in
theorem replace_length {f : ChainFollower} {«from» : ℕ} {fresh : List Held}
    (h : «from» ≤ f.blocks.length) :
    (f.replace «from» fresh).blocks.length = «from» + fresh.length := by
  show (f.blocks.take «from» ++ fresh).length = _
  rw [List.length_append, List.length_take]
  omega

/-- What applying a tail ends in. -/
theorem apply_cases {f f' : ChainFollower} {index : Index} {«from» : UInt32} {tail : Bytes}
    {r : Res FollowError Advance} (h : ChainFollower.apply D index «from» tail f = (f', r)) :
    (f' = f ∧ (∀ adv, r ≠ .ok adv)) ∨ ∃ fresh, f.fresh D index «from».toNat tail = .ok fresh ∧
      ((f' = f ∧ r = .ok .unchanged ∧ fresh = [] ∧ «from».toNat = f.blocks.length) ∨
        ((fresh ≠ [] ∨ «from».toNat ≠ f.blocks.length) ∧ f' = f.replace «from».toNat fresh ∧
          r = .ok (if f.blocks.length - «from».toNat = 0 then f'.added «from».toNat
            else .reorg «from».toNat (f.blocks.length - «from».toNat) f'.height
              (((txidsOf (f.blocks.drop «from».toNat)).filter fun t => t ∉ f'.txs).eraseDups)))) := by
  unfold ChainFollower.apply at h
  dsimp only at h
  rw [Method.read_bind] at h
  cases hfresh : f.fresh D index «from».toNat tail with
  | err e =>
    rw [hfresh, Method.bind_err (s := f) (e := e) rfl] at h
    cases h
    exact .inl ⟨rfl, fun adv hr => by cases hr⟩
  | panic =>
    rw [hfresh, Method.bind_panic (s := f) rfl] at h
    cases h
    exact .inl ⟨rfl, fun adv hr => by cases hr⟩
  | ok fresh =>
    rw [hfresh, Method.ofRes_ok_bind, Method.get_bind] at h
    refine .inr ⟨fresh, rfl, ?_⟩
    split_ifs at h with hnone hzero
    · cases h
      exact .inl ⟨rfl, rfl, List.isEmpty_iff.mp hnone.1, hnone.2⟩
    all_goals
      right
      have hsome : fresh ≠ [] ∨ «from».toNat ≠ f.blocks.length := by
        by_contra hc
        rw [not_or, not_not, not_not] at hc
        exact hnone ⟨List.isEmpty_iff.mpr hc.1, hc.2⟩
      rw [Method.modify_bind, Method.modify_bind, Method.get_bind] at h
      refine ⟨hsome, ?_⟩
    · rw [if_pos hzero]
      cases h
      exact ⟨rfl, rfl⟩
    · rw [if_neg hzero]
      cases h
      exact ⟨rfl, rfl⟩

/-! ### What is answered -/

omit [Blake2b] in
theorem mem_txidsOf {blocks : List Held} {t : Txid} :
    t ∈ txidsOf blocks ↔ t ∈ (txEntries blocks).map Prod.fst := by
  unfold txidsOf txEntries
  rw [List.mem_flatMap, List.map_map]
  constructor
  · rintro ⟨b, hb, ht⟩
    obtain ⟨tx, htx, rfl⟩ := List.mem_map.mp ht
    obtain ⟨h, hh⟩ := List.mem_iff_getElem?.mp hb
    obtain ⟨i, hi⟩ := List.mem_iff_getElem?.mp htx
    exact List.mem_map.mpr ⟨⟨h, i, tx⟩, mem_places.mpr ⟨b, hh, hi⟩, rfl⟩
  · intro ht
    obtain ⟨p, hp, rfl⟩ := List.mem_map.mp ht
    obtain ⟨b, hb, htx⟩ := mem_places.mp hp
    exact ⟨b, List.mem_of_getElem? hb, List.mem_map_of_mem (List.mem_of_getElem? htx)⟩

/-- The indexes are those of the blocks held. -/
def Indexed (f : ChainFollower) : Prop := f.reindex = f

omit [Blake2b] in
theorem Indexed.contains {f : ChainFollower} (h : Indexed f) {t : Txid} :
    t ∈ f.txs ↔ t ∈ txidsOf f.blocks := by
  rw [mem_txidsOf, ← h]
  show t ∈ Map.insertAll (txEntries f.blocks) ∅ ↔ _
  rw [Map.mem_insertAll]
  simp only [Finmap.notMem_empty, or_false]
  rfl

/-- Every transaction is under one id in the blocks. -/
def DistinctTxids (blocks : List Held) : Prop := ((txEntries blocks).map Prod.fst).Nodup

/-- Every outpoint is spent at most once in the blocks. -/
def SpentOnce (blocks : List Held) : Prop := ((spendEntries blocks).map Prod.fst).Nodup

/-- A transaction of the block held at a height. -/
def HeldAt (f : ChainFollower) (h : ℕ) (tx : Transaction) : Prop :=
  ∃ b, f.blocks[h]? = some b ∧ tx ∈ b.txdata

/-- `findTx` answers from the blocks. -/
def FindsExactly (f : ChainFollower) : Prop :=
  ∀ txid, ∃ found, f.findTx txid = .ok found ∧
    ∀ h tx, found = some (h, tx) ↔ HeldAt f h tx ∧ Bitcoin.computeTxid tx = txid

/-- `spender` answers from the blocks. -/
def SpendsExactly (f : ChainFollower) : Prop :=
  ∀ op, ∃ found, f.spender op = .ok found ∧
    ∀ txid h tx, found = some (txid, h, tx) ↔ HeldAt f h tx ∧ Bitcoin.computeTxid tx = txid ∧
      isCoinbase tx = false ∧ ∃ i ∈ tx.input, i.previousOutput = op

omit [Bitcoin] [Blake2b] in
theorem heldAt_iff {f : ChainFollower} {h : ℕ} {tx : Transaction} :
    HeldAt f h tx ↔ ∃ i, (⟨h, i, tx⟩ : Place) ∈ places f.blocks := by
  constructor
  · rintro ⟨b, hb, htx⟩
    obtain ⟨i, hi⟩ := List.mem_iff_getElem?.mp htx
    exact ⟨i, mem_places.mpr ⟨b, hb, hi⟩⟩
  · rintro ⟨i, hp⟩
    obtain ⟨b, hb, htx⟩ := mem_places.mp hp
    exact ⟨b, hb, List.mem_of_getElem? htx⟩

omit [Blake2b] in
/-- Where the index of the transactions points. -/
theorem lookup_txs {f : ChainFollower} (hf : Indexed f) (hd : DistinctTxids f.blocks) {txid : Txid}
    {h i : ℕ} : f.txs.lookup txid = some (h, i) ↔
      ∃ tx, (⟨h, i, tx⟩ : Place) ∈ places f.blocks ∧ Bitcoin.computeTxid tx = txid := by
  rw [← hf]
  show (Map.insertAll (txEntries f.blocks) ∅).lookup txid = _ ↔ _
  rw [Map.lookup_insertAll_nodup hd]
  unfold txEntries
  rw [List.mem_map]
  constructor
  · rintro ⟨⟨h', i', tx⟩, hp, heq⟩
    rw [Prod.mk.injEq, Prod.mk.injEq] at heq
    obtain ⟨rfl, rfl, rfl⟩ := heq
    exact ⟨tx, hp, rfl⟩
  · rintro ⟨tx, hp, rfl⟩
    exact ⟨⟨h, i, tx⟩, hp, rfl⟩

omit [Blake2b] in
theorem Indexed.finds {f : ChainFollower} (hf : Indexed f) (hd : DistinctTxids f.blocks) :
    FindsExactly f := by
  intro txid
  unfold ChainFollower.findTx
  cases hl : f.txs.lookup txid with
  | none =>
    refine ⟨none, rfl, fun h tx => ⟨fun hc => (by cases hc), ?_⟩⟩
    rintro ⟨hat, hid⟩
    obtain ⟨i, hp⟩ := heldAt_iff.mp hat
    rw [(lookup_txs hf hd).mpr ⟨tx, hp, hid⟩] at hl
    cases hl
  | some p =>
    obtain ⟨h, i⟩ := p
    obtain ⟨tx, hp, hid⟩ := (lookup_txs hf hd).mp hl
    obtain ⟨b, hb, htx⟩ := mem_places.mp hp
    dsimp only at hb htx ⊢
    rw [hb, Res.expect_some, Res.ok_bind, htx, Res.expect_some, Res.ok_bind]
    refine ⟨_, rfl, fun h' tx' => ?_⟩
    rw [Option.some.injEq, Prod.mk.injEq]
    constructor
    · rintro ⟨rfl, rfl⟩
      exact ⟨heldAt_iff.mpr ⟨i, hp⟩, hid⟩
    · rintro ⟨hat, hid'⟩
      obtain ⟨i', hp'⟩ := heldAt_iff.mp hat
      have hl' := (lookup_txs hf hd).mpr ⟨tx', hp', hid'⟩
      rw [hl, Option.some.injEq, Prod.mk.injEq] at hl'
      obtain ⟨rfl, rfl⟩ := hl'
      obtain ⟨b', hb', htx'⟩ := mem_places.mp hp'
      dsimp only at hb' htx'
      rw [hb, Option.some.injEq] at hb'
      subst hb'
      rw [htx, Option.some.injEq] at htx'
      exact ⟨rfl, htx'⟩

omit [Blake2b] in
theorem mem_spendEntries {blocks : List Held} {op : OutPoint} {txid : Txid} {h : ℕ} :
    (op, (txid, h)) ∈ spendEntries blocks ↔ ∃ i tx, (⟨h, i, tx⟩ : Place) ∈ places blocks ∧
      Bitcoin.computeTxid tx = txid ∧ isCoinbase tx = false ∧
      ∃ x ∈ tx.input, x.previousOutput = op := by
  unfold spendEntries
  rw [List.mem_flatMap]
  constructor
  · rintro ⟨⟨h', i, tx⟩, hp, hin⟩
    dsimp only at hin
    split_ifs at hin with hc
    · cases hin
    · obtain ⟨x, hx, heq⟩ := List.mem_map.mp hin
      rw [Prod.mk.injEq, Prod.mk.injEq] at heq
      obtain ⟨rfl, rfl, rfl⟩ := heq
      exact ⟨i, tx, hp, rfl, Bool.eq_false_iff.mpr hc, x, hx, rfl⟩
  · rintro ⟨i, tx, hp, rfl, hc, x, hx, rfl⟩
    refine ⟨⟨h, i, tx⟩, hp, ?_⟩
    dsimp only
    rw [if_neg (by rw [hc]; exact Bool.false_ne_true)]
    exact List.mem_map.mpr ⟨x, hx, rfl⟩

omit [Blake2b] in
theorem Indexed.spends {f : ChainFollower} (hf : Indexed f) (hd : DistinctTxids f.blocks)
    (hs : SpentOnce f.blocks) : SpendsExactly f := by
  have hlookup : ∀ {op txid h}, f.spends.lookup op = some (txid, h) ↔
      (op, (txid, h)) ∈ spendEntries f.blocks := by
    intro op txid h
    rw [← hf]
    exact Map.lookup_insertAll_nodup hs
  intro op
  unfold ChainFollower.spender
  cases hl : f.spends.lookup op with
  | none =>
    refine ⟨none, rfl, fun txid h tx => ⟨fun hc => (by cases hc), ?_⟩⟩
    rintro ⟨hat, hid, hc, hin⟩
    obtain ⟨i, hp⟩ := heldAt_iff.mp hat
    rw [hlookup.mpr (mem_spendEntries.mpr ⟨i, tx, hp, hid, hc, hin⟩)] at hl
    cases hl
  | some p =>
    obtain ⟨txid, h⟩ := p
    obtain ⟨i, tx, hp, hid, hc, hin⟩ := mem_spendEntries.mp (hlookup.mp hl)
    obtain ⟨found, hfound, hexact⟩ := hf.finds hd txid
    have hsome := (hexact h tx).mpr ⟨heldAt_iff.mpr ⟨i, hp⟩, hid⟩
    dsimp only
    rw [hfound, Res.ok_bind, hsome]
    refine ⟨_, rfl, fun txid' h' tx' => ?_⟩
    rw [Option.some.injEq, Prod.mk.injEq, Prod.mk.injEq]
    constructor
    · rintro ⟨rfl, rfl, rfl⟩
      exact ⟨heldAt_iff.mpr ⟨i, hp⟩, hid, hc, hin⟩
    · rintro ⟨hat, hid', hc', hin'⟩
      obtain ⟨i', hp'⟩ := heldAt_iff.mp hat
      have hl' := hlookup.mpr (mem_spendEntries.mpr ⟨i', tx', hp', hid', hc', hin'⟩)
      rw [hl, Option.some.injEq, Prod.mk.injEq] at hl'
      obtain ⟨rfl, rfl⟩ := hl'
      have hsame := (hexact h tx').mpr ⟨hat, hid'⟩
      rw [hsome, Option.some.injEq, Prod.mk.injEq] at hsame
      exact ⟨rfl, rfl, hsame.2⟩

/-! ### Runs -/

/-- Every block held was verified and links, and the indexes are the blocks'. -/
structure Sound (D : Decoders) (f : ChainFollower) : Prop where
  vouched : Vouched D f.family f.challenge f.blocks
  indexed : Indexed f

theorem Sound.replace {f : ChainFollower} {«from» : ℕ} {fresh : List Held}
    (h : Vouched D f.family f.challenge (f.blocks.take «from» ++ fresh)) :
    Sound D (f.replace «from» fresh) := ⟨h, rfl⟩

omit [Blake2b] in
theorem truncate_cases (f : ChainFollower) (len : ℕ) :
    (f.blocks.length ≤ len ∧ f.truncate len = (f, .unchanged)) ∨
      (len < f.blocks.length ∧ f.truncate len = (f.replace len [],
        .reorg len (f.blocks.length - len) (f.replace len []).height
          ((txidsOf (f.blocks.drop len)).filter fun t => t ∉ (f.replace len []).txs))) := by
  unfold ChainFollower.truncate ChainFollower.replace
  rw [List.append_nil]
  by_cases h : f.blocks.length ≤ len
  · exact .inl ⟨h, if_pos h⟩
  · exact .inr ⟨Nat.not_le.mp h, if_neg h⟩

theorem Sound.truncate {f : ChainFollower} (h : Sound D f) (len : ℕ) :
    Sound D (f.truncate len).1 := by
  rcases truncate_cases f len with ⟨-, heq⟩ | ⟨-, heq⟩
  · rw [heq]
    exact h
  · rw [heq]
    exact Sound.replace (by rw [List.append_nil]; exact h.vouched.take len)

theorem Sound.apply {f f' : ChainFollower} {index : Index} {«from» : UInt32} {tail : Bytes}
    {r : Res FollowError Advance} (h : Sound D f)
    (hrun : ChainFollower.apply D index «from» tail f = (f', r)) : Sound D f' := by
  rcases apply_cases hrun with ⟨rfl, -⟩ | ⟨fresh, hfresh, ⟨rfl, -⟩ | ⟨-, rfl, -⟩⟩
  · exact h
  · exact h
  · exact Sound.replace (fresh_ok h.vouched hfresh).2.2.1

/-- **Any sequence of calls keeps it.** -/
theorem reached_sound {f : ChainFollower} (h : Reached D family challenge f) : Sound D f := by
  induction h with
  | new => exact ⟨fun n held hn => by simp [ChainFollower.new] at hn, rfl⟩
  | call c _ ih =>
    cases c with
    | plan index => exact ih
    | apply index «from» tail => exact ih.apply rfl
    | truncate len => exact ih.truncate _

/-- The chain watched stays the one asked for. -/
theorem reached_chain {f : ChainFollower} (h : Reached D family challenge f) :
    f.family = family ∧ f.challenge = challenge := by
  induction h with
  | new => exact ⟨rfl, rfl⟩
  | @call f c h ih =>
    cases c with
    | plan index => exact ih
    | apply index «from» tail =>
      unfold Call.run
      dsimp only
      cases hrun : ChainFollower.apply D index «from» tail f with
      | mk f' r =>
        rcases apply_cases hrun with ⟨rfl, -⟩ | ⟨fresh, -, ⟨rfl, -⟩ | ⟨-, rfl, -⟩⟩
        · exact ih
        · exact ih
        · exact ih
    | truncate len =>
      rcases truncate_cases f len.toNat with ⟨-, heq⟩ | ⟨-, heq⟩
      all_goals
        rw [Call.run, heq]
        exact ih

/-- What an answer says of the follower before and after. -/
def Advance.Exact (f f' : ChainFollower) : Advance → Prop
  | .unchanged => f' = f
  | .extended «from» «to» => «from» = f.blocks.length ∧ «from» ≤ «to» ∧
    f'.blocks.length = «to» + 1 ∧ ∃ fresh, f'.blocks = f.blocks ++ fresh
  | .reorg fork depth «to» undone => fork < f.blocks.length ∧
    depth = (f.blocks.drop fork).length ∧ (∃ fresh, f'.blocks = f.blocks.take fork ++ fresh) ∧
    «to» = f'.height ∧
    ∀ t, t ∈ undone ↔ t ∈ txidsOf (f.blocks.drop fork) ∧ t ∉ txidsOf f'.blocks

omit [Blake2b] in
theorem truncate_exact (f : ChainFollower) (len : ℕ) :
    (f.truncate len).2.Exact f (f.truncate len).1 := by
  rcases truncate_cases f len with ⟨-, heq⟩ | ⟨hlt, heq⟩
  · rw [heq]
    rfl
  · rw [heq]
    refine ⟨hlt, List.length_drop.symm, ⟨[], rfl⟩, rfl, fun t => ?_⟩
    have hin : Indexed (f.replace len []) := rfl
    rw [List.mem_filter, decide_eq_true_eq, hin.contains]

omit [Blake2b] in
theorem added_exact {f : ChainFollower} {fresh : List Held} (hne : fresh ≠ []) :
    ((f.replace f.blocks.length fresh).added f.blocks.length).Exact f
      (f.replace f.blocks.length fresh) := by
  have hlen : (f.replace f.blocks.length fresh).blocks.length = f.blocks.length + fresh.length :=
    replace_length (Nat.le_refl _)
  have hpos := List.length_pos_of_ne_nil hne
  have hheight : (f.replace f.blocks.length fresh).height =
      some (f.blocks.length + fresh.length - 1) := by
    unfold ChainFollower.height
    rw [if_neg, hlen]
    intro hnil
    rw [hnil, List.length_nil] at hlen
    omega
  unfold ChainFollower.added
  rw [hheight]
  dsimp only
  rw [if_pos (by omega)]
  refine ⟨rfl, by omega, by rw [hlen]; omega, fresh, ?_⟩
  show f.blocks.take f.blocks.length ++ fresh = _
  rw [List.take_length]

theorem apply_exact {f f' : ChainFollower} {index : Index} {«from» : UInt32} {tail : Bytes}
    {adv : Advance} (h : Sound D f)
    (hrun : ChainFollower.apply D index «from» tail f = (f', .ok adv)) : adv.Exact f f' := by
  rcases apply_cases hrun with ⟨-, hno⟩ | ⟨fresh, hfresh, ⟨rfl, hadv, -⟩ | ⟨hsome, rfl, hadv⟩⟩
  · exact absurd rfl (hno adv)
  · cases hadv
    rfl
  · have hle := (fresh_ok h.vouched hfresh).1
    rw [Res.ok.injEq] at hadv
    by_cases hzero : f.blocks.length - «from».toNat = 0
    · rw [if_pos hzero] at hadv
      have hfrom : «from».toNat = f.blocks.length := by omega
      rw [hadv, hfrom]
      exact added_exact (hsome.resolve_right fun hne => hne hfrom)
    · rw [if_neg hzero] at hadv
      rw [hadv]
      refine ⟨by omega, List.length_drop.symm, ⟨fresh, rfl⟩, rfl, fun t => ?_⟩
      have hin : Indexed (f.replace «from».toNat fresh) := rfl
      rw [List.mem_eraseDups, List.mem_filter, decide_eq_true_eq, hin.contains]

/-- A refused tail leaves the follower as it was. -/
theorem apply_refused {f f' : ChainFollower} {index : Index} {«from» : UInt32} {tail : Bytes}
    {e : FollowError} (hrun : ChainFollower.apply D index «from» tail f = (f', .err e)) :
    f' = f := by
  rcases apply_cases hrun with ⟨h, -⟩ | ⟨fresh, -, ⟨h, -⟩ | ⟨-, -, hadv⟩⟩
  · exact h
  · exact h
  · cases hadv

/-! ### Up to date -/

/-- The blocks held are those the index lists. -/
def Agrees (f : ChainFollower) (index : Index) : Prop :=
  List.Forall₂ (fun (held : Held) (e : IndexEntry) => hashText held.hash = e.hash) f.blocks
    index.blocks

/-- How many blocks from the first on the index and the follower share. -/
def common (f : ChainFollower) (index : Index) : ℕ :=
  ((f.blocks.zip index.blocks).takeWhile fun p => hashText p.1.hash == p.2.hash).length

omit [Bitcoin] [Blake2b] in
theorem plan_cases {f : ChainFollower} {index : Index} {p : Plan} (h : f.plan index = .ok p) :
    (index.blocks.zipIdx.find? fun e => e.1.height.toNat != e.2) = none ∧
      ((∃ e, index.blocks[common f index]? = some e ∧ p = .fetch (common f index) e.offset) ∨
        (index.blocks.length ≤ common f index ∧ common f index < f.blocks.length ∧
          p = .truncate (common f index)) ∨
        (index.blocks.length ≤ common f index ∧ f.blocks.length ≤ common f index ∧
          p = .upToDate)) := by
  unfold ChainFollower.plan at h
  split at h
  · cases h
  · rename_i hnone
    refine ⟨hnone, ?_⟩
    change (match index.blocks[common f index]? with
      | some e => Res.ok (Plan.fetch (common f index) e.offset)
      | none => if common f index < f.blocks.length then Res.ok (Plan.truncate (common f index))
        else Res.ok Plan.upToDate) = .ok p at h
    cases he : index.blocks[common f index]? with
    | some e =>
      rw [he, Res.ok.injEq] at h
      exact .inl ⟨e, rfl, h.symm⟩
    | none =>
      rw [List.getElem?_eq_none_iff] at he
      rw [List.getElem?_eq_none he] at h
      dsimp only at h
      split_ifs at h with hlt
      · cases h
        exact .inr (.inl ⟨he, hlt, rfl⟩)
      · cases h
        exact .inr (.inr ⟨he, Nat.not_lt.mp hlt, rfl⟩)

omit [Bitcoin] [Blake2b] in
/-- The first blocks of both agree. -/
theorem common_agrees (f : ChainFollower) (index : Index) (n : ℕ) (hn : n < common f index) :
    ∃ held e, f.blocks[n]? = some held ∧ index.blocks[n]? = some e ∧
      hashText held.hash = e.hash := by
  have hget : ∀ {α : Type} (p : α → Bool) (l : List α) (k : ℕ), k < (l.takeWhile p).length →
      ∃ x, l[k]? = some x ∧ p x = true := by
    intro α p l
    induction l with
    | nil => intro k hk; simp at hk
    | cons a l ih =>
      intro k hk
      rw [List.takeWhile_cons] at hk
      split at hk
      · rename_i ha
        cases k with
        | zero => exact ⟨a, rfl, ha⟩
        | succ k =>
          rw [List.length_cons] at hk
          exact ih k (by omega)
      · simp at hk
  obtain ⟨⟨held, e⟩, hx, hp⟩ := hget _ _ _ hn
  rw [List.getElem?_zip_eq_some] at hx
  exact ⟨held, e, hx.1, hx.2, beq_iff_eq.mp hp⟩

omit [Bitcoin] [Blake2b] in
theorem plan_of_agrees {f : ChainFollower} {index : Index}
    (hpos : (index.blocks.zipIdx.find? fun e => e.1.height.toNat != e.2) = none)
    (h : Agrees f index) : f.plan index = .ok .upToDate := by
  have hlen := h.length_eq
  have hall : (f.blocks.zip index.blocks).takeWhile
      (fun p => hashText p.1.hash == p.2.hash) = f.blocks.zip index.blocks := by
    rw [List.takeWhile_eq_self_iff]
    rintro ⟨held, e⟩ hx
    exact beq_iff_eq.mpr (List.forall₂_zip h hx)
  unfold ChainFollower.plan
  rw [hpos]
  dsimp only
  rw [hall, List.length_zip, hlen, Nat.min_self, List.getElem?_eq_none (Nat.le_refl _)]
  dsimp only
  rw [if_neg (by omega)]

omit [Bitcoin] [Blake2b] in
theorem agrees_of_getElem {f : ChainFollower} {index : Index}
    (hlen : f.blocks.length = index.blocks.length)
    (h : ∀ n < f.blocks.length, ∃ held e, f.blocks[n]? = some held ∧ index.blocks[n]? = some e ∧
      hashText held.hash = e.hash) : Agrees f index := by
  unfold Agrees
  rw [List.forall₂_iff_get]
  refine ⟨hlen, fun n h1 h2 => ?_⟩
  obtain ⟨held, e, hheld, he, heq⟩ := h n h1
  rw [List.getElem?_eq_getElem h1, Option.some.injEq] at hheld
  rw [List.getElem?_eq_getElem h2, Option.some.injEq] at he
  rw [List.get_eq_getElem, List.get_eq_getElem]
  simp only [hheld, he, heq]

/-- The call a plan asks for, with a tail read for it, brings the follower up to date. -/
theorem plan_applied {f f' : ChainFollower} {index : Index} {«from» : UInt32} {offset : ℕ}
    {tail : Bytes} {adv : Advance} (h : Sound D f)
    (hplan : f.plan index = .ok (.fetch «from».toNat offset))
    (hrun : ChainFollower.apply D index «from» tail f = (f', .ok adv)) :
    f'.plan index = .ok .upToDate := by
  obtain ⟨hpos, hcase⟩ := plan_cases hplan
  have hfetch : ∃ e, index.blocks[common f index]? = some e ∧ «from».toNat = common f index := by
    rcases hcase with ⟨e, he, heq⟩ | ⟨-, -, heq⟩ | ⟨-, -, heq⟩
    · exact ⟨e, he, (Plan.fetch.inj heq).1⟩
    · cases heq
    · cases heq
  obtain ⟨e, he, hfrom⟩ := hfetch
  have hlt := (List.getElem?_eq_some_iff.mp he).1
  rcases apply_cases hrun with ⟨-, hno⟩ | ⟨fresh, hfresh, hend⟩
  · exact absurd rfl (hno adv)
  · obtain ⟨hle, hlen, -, hlisted⟩ := fresh_ok h.vouched hfresh
    rcases hend with ⟨-, -, hnil, -⟩ | ⟨-, rfl, -⟩
    · rw [hnil, List.length_nil] at hlen
      omega
    · apply plan_of_agrees hpos
      have hrlen : (f.replace «from».toNat fresh).blocks.length = «from».toNat + fresh.length :=
        replace_length hle
      refine agrees_of_getElem (hrlen.trans hlen) fun n hn => ?_
      by_cases hbelow : n < «from».toNat
      · obtain ⟨held, e', hheld, he', heq⟩ := common_agrees f index n (by omega)
        refine ⟨held, e', ?_, he', heq⟩
        show (f.blocks.take «from».toNat ++ fresh)[n]? = _
        rw [List.getElem?_append_left (by rw [List.length_take]; omega), List.getElem?_take,
          if_pos hbelow]
        exact hheld
      · obtain ⟨e', he', heq⟩ := hlisted n _ (by omega) (List.getElem?_eq_getElem hn)
        exact ⟨_, e', List.getElem?_eq_getElem hn, he', heq.symm⟩

omit [Blake2b] in
theorem plan_truncated {f : ChainFollower} {index : Index} {len : ℕ}
    (hplan : f.plan index = .ok (.truncate len)) :
    (f.truncate len).1.plan index = .ok .upToDate := by
  obtain ⟨hpos, hcase⟩ := plan_cases hplan
  have hshort : index.blocks.length ≤ len ∧ len < f.blocks.length ∧ len = common f index := by
    rcases hcase with ⟨e, -, heq⟩ | ⟨h1, h2, heq⟩ | ⟨-, -, heq⟩
    · cases heq
    · have hlen := Plan.truncate.inj heq
      exact ⟨hlen ▸ h1, hlen ▸ h2, hlen⟩
    · cases heq
  obtain ⟨hidx, hlt, hcommon⟩ := hshort
  rcases truncate_cases f len with ⟨hle, -⟩ | ⟨-, heq⟩
  · omega
  · rw [heq]
    apply plan_of_agrees hpos
    have hrlen : (f.replace len []).blocks.length = len + ([] : List Held).length :=
      replace_length (Nat.le_of_lt hlt)
    rw [List.length_nil, Nat.add_zero] at hrlen
    have hshared : ∀ n < len, ∃ held e, f.blocks[n]? = some held ∧ index.blocks[n]? = some e ∧
        hashText held.hash = e.hash := fun n hn => common_agrees f index n (by omega)
    have hlen : len ≤ index.blocks.length := by
      by_contra hc
      obtain ⟨-, e, -, he, -⟩ := hshared index.blocks.length (by omega)
      rw [List.getElem?_eq_none (Nat.le_refl _)] at he
      cases he
    refine agrees_of_getElem (hrlen.trans (Nat.le_antisymm hlen hidx)) fun n hn => ?_
    rw [hrlen] at hn
    obtain ⟨held, e, hheld, he, hh⟩ := hshared n hn
    refine ⟨held, e, ?_, he, hh⟩
    show (f.blocks.take len ++ [])[n]? = _
    rw [List.append_nil, List.getElem?_take, if_pos hn]
    exact hheld

end

section

attribute [local instance] sampleBitcoin sampleBlake2b

/-- The sample chain's genesis, signed. -/
def sampleGenesisBlock : Option (Block Header) :=
  match (do
    let unsigned ← buildGenesisFor sampleDoc
    let challenge ← sampleDoc.challengeScript
    signBlock unsigned challenge 1 : Res Error (Block Header)) with
  | .ok b => some b
  | _ => none

/-- Every stock block is read as the sample's genesis. -/
def sampleDecoders : Decoders := ⟨fun _ => sampleGenesisBlock, fun _ => none⟩

def sampleIndex : Index where
  network := []
  «from» := 0
  «to» := 0
  blocks := [⟨0, match sampleGenesisBlock with
    | some b => hashText (HeaderFamily.blockHash b.header)
    | none => [], 0, 0⟩]

def sampleChallenge : Bytes :=
  match sampleDoc.challengeScript with
  | .ok c => c
  | _ => []

/-- A follower that took the genesis. -/
def sampleFollower : ChainFollower :=
  (Call.apply sampleIndex 0 (Mirror.encodeRecord 0 [])).run sampleDecoders
    (.new .stock sampleChallenge)

end

end Follow

end Sidestr
