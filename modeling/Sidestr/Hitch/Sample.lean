/-
# An executable instance

`Hitch` at functions that compute, so that a run of a channel can be evaluated.
A point is its own scalar: sums of points are those of their scalars, and the
keys whose points exist exist. Signatures and proofs are keyed hashes.

`sampleOpened` is the two ends of one opening of 100,000 sats, 20,000 of them
pushed, and `runAll` makes calls in order. What it reaches is a run
(`run_of_runAll`).

Key definitions: `sampleHitch`, `sampleOpened`, `runAll`.
Key theorems: `run_of_runAll`, `sampleOpened_valid`.
-/
import Sidestr.Core.Sample
import Sidestr.Core.Text
import Sidestr.Hitch.Run

namespace Sidestr

namespace Hitch

/-- A keyed hash of numbers as a signature. -/
def keyedHash (seed : ℕ) (key : Point) (l : List ℕ) : Bytes :=
  displayBytes (numsHash seed (key.toNat :: l))

def Side.toNat : Side → ℕ
  | .a => 0
  | .b => 1

/-- An output script of some keys, and a leaf of it. -/
def sampleScript (seed : ℕ) (keys : List ℕ) : Bytes :=
  0x51 :: 0x20 :: displayBytes (numsHash seed keys)

def sampleLeaf (seed : ℕ) (keys : List ℕ) (csv : Bool) : LeafSpend :=
  ⟨sampleScript seed keys, numsHash (seed + 1) keys, [0xc0], csv⟩

/-- The hash a funding or claim signature is on. -/
def leafHashOf (tx : Transaction) (prevouts : List TxOut) (leafHash : Hash256) : List ℕ :=
  leafHash.toNat :: baseNats tx ++ prevouts.flatMap fun o => [o.sats, poly 0 o.scriptPubkey]

/-- A signature names the transaction it is on. -/
def sampleSignature (key : Point) (tx : Transaction) (prevouts : List TxOut)
    (leafHash : Hash256) : Bytes :=
  displayBytes (sampleBitcoin.computeTxid tx) ++ keyedHash 29 key (leafHashOf tx prevouts leafHash)

/-- The instance the samples run on. -/
@[reducible] def sampleHitch : Hitch where
  toBitcoin := sampleBitcoin
  validSecret b := b != 0
  «public» s := s.1
  sha p := polyHash 11 (displayBytes p)
  revocationPub p s := if p + s.1 = 0 then none else some (p + s.1)
  revocationKey b s := if h : (b.1 + s.1 != 0) = true then some ⟨b.1 + s.1, h⟩ else none
  popSign key ctx _ := keyedHash 12 key.1 [ctx.id.toNat, ctx.owner.toNat, ctx.n]
  popVerify point proof ctx := proof == keyedHash 12 point [ctx.id.toNat, ctx.owner.toNat, ctx.n]
  fundingScript a b := some ⟨sampleScript 13 [a.toNat, b.toNat], (a, b),
    sampleLeaf 14 [a.toNat, b.toNat] false⟩
  toLocalScript owner revocation delay :=
    let keys := [owner.toNat, revocation.toNat, delay]
    some ⟨sampleScript 16 keys, sampleLeaf 17 keys true, sampleLeaf 19 keys false⟩
  toRemoteScript key := sampleScript 21 [key.toNat]
  htlcScript args :=
    let keys := [args.ownerPub.toNat, args.remotePub.toNat, args.revocationPub.toNat, args.delay,
      args.paymentHash.toNat, args.expiry, args.offeredByOwner.toNat]
    some ⟨sampleScript 22 keys, sampleLeaf 23 keys true, sampleLeaf 25 keys true,
      sampleLeaf 27 keys false⟩
  signLeaf tx prevouts leafHash key _ _ := some (sampleSignature key.1 tx prevouts leafHash)
  verifyLeafSignature tx prevouts leafHash pk sig _ :=
    sig == sampleSignature pk tx prevouts leafHash
  preimageIn tx hash := (tx.input.flatMap fun i => i.witness).findSome? fun item : Bytes =>
    let p : Hash256 := BitVec.ofNat 256 (beNat item)
    if item.length == 32 && polyHash 11 (displayBytes p) == hash then some p else none

attribute [local instance] sampleHitch

/-- A sum of scalars is a scalar where its point is a point. -/
theorem sampleHitch_keys (r b : SecretKey) (hnone : Hitch.revocationKey b r = none) :
    Hitch.revocationPub (Hitch.public r) b = none := by
  change (if h : (b.1 + r.1 != 0) = true then some _ else none) = none at hnone
  change (if r.1 + b.1 = 0 then none else some _) = none
  split at hnone
  · cases hnone
  · rename_i hzero
    rw [if_pos]
    rw [BitVec.add_comm]
    simpa using hzero

/-- Calls made in order, as long as each can be. -/
def runAll : ChannelMachine → List Call → Option (ChannelMachine × List Done)
  | m, [] => some (m, [])
  | m, c :: cs =>
    match c.run m with
    | none => none
    | some (m', out) => (runAll m' cs).map fun r => (r.1, (m', out) :: r.2)

/-- Calls made in order continue a run. -/
theorem run_of_runAll {ok : ChannelMachine → Call → Prop} {o : Opened} :
    ∀ {cs : List Call} {m m' : ChannelMachine} {log done : List Done}, Run ok o m log →
      (∀ c ∈ cs, ∀ m, ok m c) → runAll m cs = some (m', done) → Run ok o m' (log ++ done)
  | [], m, m', log, done, hrun, _, h => by
    cases h
    rw [List.append_nil]
    exact hrun
  | c :: cs, m, m', log, done, hrun, hok, h => by
    unfold runAll at h
    split at h
    · cases h
    · rename_i m₁ out hc
      rw [Option.map_eq_some_iff] at h
      obtain ⟨⟨m₂, rest⟩, hrest, h⟩ := h
      cases h
      have hstep := Run.call c hrun (hok c List.mem_cons_self m) hc
      have ih := run_of_runAll hstep (fun c' hc' => hok c' (List.mem_cons_of_mem c hc')) hrest
      rwa [List.append_assoc, List.singleton_append] at ih

/-! ### An opening -/

def sampleSecret (n : ℕ) (h : (BitVec.ofNat 256 n != 0) = true := by decide) : SecretKey :=
  ⟨BitVec.ofNat 256 n, h⟩

/-- The channel of keys 101 and 202. -/
def sampleChannel : Channel where
  keys := (101, 202)
  fundingOutpoint := outPointAt 0xabcdef00000000000000000000000000000000000000000000000000000000 0
  fundingValue := 100000
  fundingScript := ⟨sampleScript 13 [101, 202], (101, 202), sampleLeaf 14 [101, 202] false⟩
  fee := 1000
  delay := 10
  fee_ok := by decide
  delay_ok := by decide

/-- One end's handover, before the other's signature on the first state. -/
def sampleUnsigned (role : Side) : Opened where
  id := channelIdOf sampleChannel.fundingOutpoint.txid
  role
  channel := sampleChannel
  initialState := ⟨80000, 20000, []⟩
  channelKey := match role with
    | .a => sampleSecret 101
    | .b => sampleSecret 202
  revocationBase := match role with
    | .a => sampleSecret 11
    | .b => sampleSecret 12
  revocation := match role with
    | .a => (sampleSecret 21, sampleSecret 22)
    | .b => (sampleSecret 31, sampleSecret 32)
  theirRevocationBase := match role with
    | .a => 12
    | .b => 11
  theirRevocation := match role with
    | .a => (31, 32)
    | .b => (21, 22)
  theirSignatureZero := []
  peerHubFee := none
  rules := .bip341

/-- The other side's signature on this side's first commitment. -/
def sampleSignatureZero (role : Side) : Sig :=
  match (sampleUnsigned role).machine.myCommitment 0 with
  | .ok c =>
    match sampleChannel.signFunding c.tx (sampleUnsigned role.other).channelKey .bip341 0 with
    | .ok sig => sig
    | .error _ => []
  | _ => []

/-- One end of the opening. -/
def sampleOpened (role : Side) : Opened :=
  { sampleUnsigned role with theirSignatureZero := sampleSignatureZero role }

set_option maxRecDepth 10000 in
theorem sampleChannel_new : Channel.new sampleChannel.keys.1 sampleChannel.keys.2
    sampleChannel.fundingOutpoint sampleChannel.fundingValue sampleChannel.fee
    sampleChannel.delay = .ok sampleChannel := by
  decide +kernel

theorem sampleState : validatePush sampleChannel.fundingValue 20000 sampleChannel.fee = .ok () ∧
    initialState sampleChannel.fundingValue 20000 = .ok ⟨80000, 20000, []⟩ := by
  decide +kernel

theorem sampleOpened_valid (role : Side) : (sampleOpened role).Valid where
  id := (rfl : (sampleUnsigned role).id = channelIdOf sampleChannel.fundingOutpoint.txid)
  value := (by decide : sampleChannel.fundingValue ≤ maxSats)
  channel := sampleChannel_new
  state := ⟨20000, sampleState⟩

/-- The calls from the opening of one end. -/
def sampleRunOf (role : Side) (calls : List Call) : Option (ChannelMachine × List Done) :=
  match ChannelMachine.new (sampleOpened role) with
  | .ok m => runAll m calls
  | _ => none

theorem run_of_sample {ok : ChannelMachine → Call → Prop} {role : Side} {calls : List Call}
    {m : ChannelMachine} {log : List Done} (hok : ∀ c ∈ calls, ∀ m, ok m c)
    (h : sampleRunOf role calls = some (m, log)) : Run ok (sampleOpened role) m log := by
  unfold sampleRunOf at h
  split at h
  · rename_i m₀ hnew
    have hstart : Run ok (sampleOpened role) m₀ [] := .start (sampleOpened_valid role) hnew
    exact run_of_runAll hstart hok h
  · cases h

/-- A context at a height. -/
def sampleContext (height : ℕ) : Context := ⟨height, 10 * height, 0, false⟩

/-- The messages the last call sent. -/
def lastSent (r : Option (ChannelMachine × List Done)) : List PeerMessage :=
  (r.bind fun r => r.2.getLast?.map fun d => d.2.messages).getD []

/-- A payment of side A's, confirmed and proposed. -/
def payCalls : List Call :=
  [.confirmFunding 100, .pay 5000 none (sampleSecret 23) (sampleContext 101)]

/-- What side B makes of a message. -/
def answerOf : PeerMessage → List Call
  | .update u => [.receiveUpdate u (sampleSecret 33) (sampleContext 101)]
  | _ => []

/-- What side A makes of the answer. -/
def closingOf : PeerMessage → List Call
  | .ack a => [.receiveAck a]
  | _ => []

/-- The payment acknowledged. -/
def ackedCalls : List Call :=
  let answers := lastSent (sampleRunOf .b
    (.confirmFunding 100 :: (lastSent (sampleRunOf .a payCalls)).flatMap answerOf))
  payCalls ++ answers.flatMap closingOf

/-- The payment acknowledged, a sync, and then the commitment published. -/
def paidCalls : List Call :=
  ackedCalls ++ [.syncMessage .sync, .forceClose none "closing".toList (sampleContext 102)]

/-- The calls of the acknowledged payment name no state. -/
theorem ackedCalls_names {c : Call} (hc : c ∈ ackedCalls) : ¬ c.namesState := by
  unfold ackedCalls payCalls at hc
  simp only [List.mem_append, List.mem_cons, List.mem_flatMap, List.not_mem_nil, or_false] at hc
  rcases hc with (rfl | rfl) | ⟨message, -, hc⟩
  · exact id
  · exact id
  · unfold closingOf at hc
    split at hc
    · rw [List.mem_singleton] at hc
      rw [hc]
      exact id
    · cases hc

end Hitch

end Sidestr
