/-
# What the payer of a burn builds

The payer takes coins of the peg, largest first, until they cover the burn and
the fee at the size so far; the fee is for the witnesses that are not there yet,
and change under the dust limit goes to it. What it builds, a co-signer's check
accepts.

The sums saturate at 64 bits: a fee that does not fit is cut only where the
coins taken hold all that fits. A burn that names the script of its own marker
is the one whose payment the check does not recognise.

Key definitions: `strippedSize`, `witnessLength`, `Finalises`, `PaysFrom`, `Refused`.
Key theorems: `chooseCoins_ok`, `chooseCoins_err`, `payout_passes`.
-/
import Sidestr.Core.Sample
import Sidestr.Round.Sample

namespace Sidestr

namespace Round

open Parent

/-! ### Sizes -/

/-- The wire bytes of a transaction without its witnesses. -/
def strippedSize (tx : Transaction) : ℕ :=
  8 + compactSize tx.input.length + compactSize tx.output.length +
    (tx.input.map fun i => 40 + compactSize i.scriptSig.length + i.scriptSig.length).sum +
    (tx.output.map fun o => 8 + compactSize o.scriptPubkey.length + o.scriptPubkey.length).sum

/-- The wire bytes of a witness whose items have these lengths. -/
def witnessLength (lengths : List ℕ) : ℕ :=
  compactSize lengths.length + (lengths.map fun n => compactSize n + n).sum

/-- The lengths of the slots of a finalised input. -/
def slotLengths (fed : Federation) : List ℕ :=
  List.replicate fed.threshold 65 ++ List.replicate (fed.signers.length - fed.threshold) 0

/-- The transaction with `k` signatures of 65 bytes on every input, in any slots. -/
structure Finalises (fed : Federation) (tx tx' : Transaction) : Prop where
  output : tx'.output = tx.output
  input : List.Forall₂ (fun i i' => ∃ slots : List Bytes,
    (slots.map List.length).Perm (slotLengths fed) ∧
      i' = { i with witness := slots ++ [fed.script, fed.controlBlock] }) tx.input tx'.input

theorem compactSize_le (n : ℕ) : compactSize n ≤ 9 := by
  unfold compactSize
  split_ifs <;> omega

theorem witnessLength_perm {l l' : List ℕ} (h : l.Perm l') : witnessLength l = witnessLength l' := by
  unfold witnessLength
  rw [h.length_eq, (h.map _).sum_eq]

theorem slotLengths_eq (fed : Federation) :
    (fed.signers.zipIdx.map fun x => if x.2 < fed.threshold then 65 else 0) = slotLengths fed := by
  have hle := fed.threshold_le
  unfold slotLengths
  refine List.ext_getElem ?_ fun i h₁ h₂ => ?_
  · simp
    omega
  · rw [List.getElem_map, List.getElem_zipIdx]
    dsimp only
    rw [Nat.zero_add]
    by_cases hi : i < fed.threshold
    · rw [if_pos hi, List.getElem_append_left (by rwa [List.length_replicate]),
        List.getElem_replicate]
    · rw [if_neg hi, List.getElem_append_right (by rw [List.length_replicate]; omega),
        List.getElem_replicate]

theorem witnessSize_eq (fed : Federation) :
    witnessSize fed = witnessLength (slotLengths fed ++ [fed.script.length, fed.controlBlock.length]) := by
  unfold witnessSize witnessLength
  rw [← slotLengths_eq]

/-- The witnesses of a finalised transaction, all of one size. -/
theorem finalised_witnesses {fed : Federation} {inputs inputs' : List TxIn}
    (h : List.Forall₂ (fun i i' => ∃ slots : List Bytes,
      (slots.map List.length).Perm (slotLengths fed) ∧
        i' = { i with witness := slots ++ [fed.script, fed.controlBlock] }) inputs inputs') :
    (inputs'.map fun i => witnessLength (i.witness.map List.length)).sum =
        inputs.length * witnessSize fed ∧
      (inputs'.map fun i => 40 + compactSize i.scriptSig.length + i.scriptSig.length) =
        (inputs.map fun i => 40 + compactSize i.scriptSig.length + i.scriptSig.length) ∧
      ∀ i ∈ inputs', i.witness ≠ [] := by
  induction h with
  | nil => exact ⟨(Nat.zero_mul _).symm, rfl, fun i hi => by cases hi⟩
  | @cons i i' inputs inputs' hi _ ih =>
    obtain ⟨slots, hperm, rfl⟩ := hi
    have hsize : witnessLength ((slots ++ [fed.script, fed.controlBlock]).map List.length) =
        witnessSize fed := by
      rw [witnessSize_eq, List.map_append]
      exact witnessLength_perm (hperm.append_right _)
    refine ⟨?_, ?_, fun j hj => ?_⟩
    · rw [List.map_cons, List.sum_cons, ih.1, List.length_cons, Nat.succ_mul, Nat.add_comm]
      rw [hsize]
    · rw [List.map_cons, List.map_cons, ih.2.1]
    · rcases List.mem_cons.mp hj with rfl | hj
      · exact List.append_ne_nil_of_right_ne_nil _ (List.cons_ne_nil _ _)
      · exact ih.2.2 j hj

/-- Some finalised transaction. -/
theorem finalises_some (fed : Federation) (tx : Transaction) :
    Finalises fed tx { tx with input := tx.input.map fun i => { i with
      witness := ((slotLengths fed).map fun n => List.replicate n 0) ++
        [fed.script, fed.controlBlock] } } where
  output := rfl
  input := by
    rw [List.forall₂_map_right_iff]
    refine List.forall₂_same.mpr fun i _ => ⟨_, ?_, rfl⟩
    rw [List.map_map]
    refine List.Perm.of_eq ((List.map_congr_left fun n _ => ?_).trans (List.map_id _))
    exact List.length_replicate

section

variable [Bitcoin]

/-- The virtual size: a quarter of the weight, rounded up. -/
def vsize (tx : Transaction) : ℕ := (Bitcoin.weight tx + 3) / 4

section

variable (hbase : ∀ tx, Bitcoin.baseSize tx = strippedSize tx)
  (hweight : ∀ tx : Transaction, tx.input ≠ [] → (∀ i ∈ tx.input, i.witness ≠ []) →
    Bitcoin.weight tx = 4 * Bitcoin.baseSize tx + 2 +
      (tx.input.map fun i => witnessLength (i.witness.map List.length)).sum)

include hbase hweight

/-- The size the fee is for is that of the finalised transaction. -/
theorem vsize_finalised {fed : Federation} {tx tx' : Transaction} (h : Finalises fed tx tx')
    (hne : tx.input ≠ []) : vsize tx' = vsizeWith fed tx := by
  obtain ⟨hwitness, hscripts, hsigned⟩ := finalised_witnesses h.input
  have hlength := h.input.length_eq
  have hstripped : strippedSize tx' = strippedSize tx := by
    unfold strippedSize
    rw [h.output, ← hlength, hscripts]
  have hne' : tx'.input ≠ [] := by
    intro hnil
    rw [hnil] at hlength
    exact hne (List.length_eq_zero_iff.mp hlength)
  unfold vsize vsizeWith
  rw [hweight tx' hne' hsigned, hbase, hbase, hstripped, hwitness]
  congr 1
  omega

end

/-! ### The coins taken -/

/-- What some coins hold. -/
def coinSum (coins : List PegCoin) : ℕ := (coins.map fun c => c.value.toNat).sum

omit [Bitcoin] in
theorem coinSum_append (a b : List PegCoin) : coinSum (a ++ b) = coinSum a + coinSum b := by
  unfold coinSum
  rw [List.map_append, List.sum_append]

/-- The coins cover the burn and the fee at their number. -/
def Covers (fed : Federation) (pay marker : TxOut) (value feeRate : ℕ) (coins : List PegCoin) :
    Prop :=
  value + feeRate * vsizeWith fed (payoutShape fed pay marker coins (some 0)) ≤ coinSum coins

/-- Coins taken are a prefix that covers what is asked, in saturating sums. -/
theorem chooseCoins_ok {fed : Federation} {pay marker : TxOut} {value feeRate : ℕ} :
    ∀ {coins chosen : List PegCoin} {total : ℕ} {taken : List PegCoin} {rest : ℕ},
      chooseCoins fed pay marker value feeRate chosen total coins = .ok (taken, rest) →
      total = coinSum chosen →
      (∃ c more, c :: more <+: coins ∧ taken = chosen ++ c :: more) ∧
        coinSum taken ≤ Word.maxVal 64 ∧
        Word.satAdd 64 value (payoutFee fed pay marker feeRate taken) + rest = coinSum taken
  | [], chosen, total, taken, rest, h, _ => by
    unfold chooseCoins at h
    cases h
  | c :: coins, chosen, total, taken, rest, h, htotal => by
    unfold chooseCoins at h
    dsimp only at h
    obtain ⟨total', hsum, h⟩ := Res.bind_eq_ok.mp h
    rw [Res.okOr_eq_ok, Word.checkedAdd_eq_some] at hsum
    obtain ⟨rfl, hmax⟩ := hsum
    have htotal' : total + c.value.toNat = coinSum (chosen ++ [c]) := by
      rw [coinSum_append, htotal]
      rfl
    split at h
    · obtain ⟨⟨c', more, hstart, htaken⟩, hle, hrest⟩ := chooseCoins_ok h htotal'
      rw [List.append_assoc, List.singleton_append] at htaken
      exact ⟨⟨c, c' :: more, (List.prefix_cons_inj c).mpr hstart, htaken⟩, hle, hrest⟩
    · rename_i rest' hsub
      obtain ⟨hle, hrest⟩ := Word.checkedSub_eq_some.mp hsub
      rw [Res.ok.injEq, Prod.mk.injEq] at h
      obtain ⟨rfl, rfl⟩ := h
      refine ⟨⟨c, [], List.cons_prefix_cons.mpr ⟨rfl, List.nil_prefix⟩, rfl⟩, ?_, ?_⟩
      · rw [← htotal']
        exact hmax
      · rw [← htotal', hrest]
        omega

/-- No coins are taken where no prefix that fits 64 bits covers. -/
theorem chooseCoins_err {fed : Federation} {pay marker : TxOut} {value feeRate : ℕ} :
    ∀ {coins chosen : List PegCoin} {total : ℕ} {e : PegoutError},
      chooseCoins fed pay marker value feeRate chosen total coins = .err e →
      total = coinSum chosen →
      ∀ c more, c :: more <+: coins → coinSum (chosen ++ c :: more) ≤ Word.maxVal 64 →
        ¬ Covers fed pay marker value feeRate (chosen ++ c :: more)
  | [], chosen, total, e, h, _, c, more, hstart, _ => by
    have hnil := List.prefix_nil.mp hstart
    cases hnil
  | c :: coins, chosen, total, e, h, htotal, c', more, hstart, hfits => by
    unfold chooseCoins at h
    dsimp only at h
    have htotal' : total + c.value.toNat = coinSum (chosen ++ [c]) := by
      rw [coinSum_append, htotal]
      rfl
    obtain ⟨hc, hrest⟩ := List.cons_prefix_cons.mp hstart
    rw [hc] at hfits ⊢
    have hsplit := coinSum_append (chosen ++ [c]) more
    rw [List.append_assoc, List.singleton_append] at hsplit
    rw [Word.checkedAdd_eq_some.mpr ⟨rfl, (by omega : total + c.value.toNat ≤ Word.maxVal 64)⟩,
      Res.okOr_some, Res.ok_bind] at h
    split at h
    · rename_i hsub
      have hshort : ¬ Covers fed pay marker value feeRate (chosen ++ [c]) := by
        intro hcovers
        unfold Covers at hcovers
        have hle := Word.satAdd_le_add (w := 64) value
          (payoutFee fed pay marker feeRate (chosen ++ [c]))
        have hfee : payoutFee fed pay marker feeRate (chosen ++ [c]) ≤
            feeRate * vsizeWith fed (payoutShape fed pay marker (chosen ++ [c]) (some 0)) :=
          Nat.min_le_left _ _
        have hsome := Word.checkedSub_eq_some.mpr ⟨(by omega : Word.satAdd 64 value
          (payoutFee fed pay marker feeRate (chosen ++ [c])) ≤ total + c.value.toNat), rfl⟩
        rw [hsub] at hsome
        cases hsome
      cases more with
      | nil => exact hshort
      | cons d more =>
        have hd := chooseCoins_err h htotal' d more hrest
        rw [List.append_assoc, List.singleton_append] at hd
        exact hd hfits
    · cases h

theorem chooseCoins_ne_panic {fed : Federation} {pay marker : TxOut} {value feeRate : ℕ} :
    ∀ {coins chosen : List PegCoin} {total : ℕ},
      chooseCoins fed pay marker value feeRate chosen total coins ≠ .panic
  | [], chosen, total, h => by
    unfold chooseCoins at h
    cases h
  | c :: coins, chosen, total, h => by
    unfold chooseCoins at h
    dsimp only at h
    refine Res.bind_ne_panic (Res.okOr_ne_panic _ _) (fun total' _ h => ?_) h
    split at h
    · exact chooseCoins_ne_panic h
    · cases h

/-! ### The payment -/

/-- The payment spends these coins of the peg, each once. -/
structure PaysFrom (fed : Federation) (coins taken : List PegCoin) (psbt : Psbt) : Prop where
  mem : ∀ c ∈ taken, c ∈ coins
  distinct : (psbt.unsignedTx.input.map TxIn.previousOutput).Nodup
  inputs : psbt.unsignedTx.input.map TxIn.previousOutput = taken.map PegCoin.outpoint
  utxos : psbt.inputs.map PsbtInput.witnessUtxo =
    taken.map fun c => some ⟨c.value, fed.challenge⟩

omit [Bitcoin] in
theorem sorted_perm (coins : List PegCoin) :
    (coins.insertionSort fun a b => coinLe a b).Perm coins := List.perm_insertionSort _ coins

omit [Bitcoin] in
theorem pegInputs_map [PsbtCodec] {fed : Federation} : ∀ (taken : List PegCoin) (acc : ℕ),
    pegInputs fed.challenge acc (taken.map (pegInput fed)) =
      some (Word.satSum 64 acc (taken.map fun c => c.value.toNat))
  | [], acc => rfl
  | c :: taken, acc => by
    rw [List.map_cons, List.map_cons]
    unfold pegInputs pegInput
    dsimp only
    rw [if_pos rfl]
    exact pegInputs_map taken _

omit [Bitcoin] in
/-- The outputs carry the burn and the change. -/
theorem payoutShape_sum (fed : Federation) {chainId : Bytes} {burn : Burn} {marker : TxOut}
    (taken : List PegCoin) (change : Option ℕ) (script : Bytes)
    (hvalue : burn.value ≤ Word.maxVal 64)
    (hmarker : pegoutMarkerOutput chainId burn.txid = .ok marker)
    (hchange : change.getD 0 ≤ Word.maxVal 64) :
    ((payoutShape fed ⟨UInt64.ofNat burn.value, script⟩ marker taken change).output.map
      TxOut.sats).sum = burn.value + change.getD 0 := by
  have hsats : ∀ v ≤ Word.maxVal 64, (UInt64.ofNat v).toNat = v := fun v hv =>
    UInt64.toNat_ofNat_of_lt' (Nat.lt_of_le_of_lt hv (by decide))
  have hempty : marker.sats = 0 := by
    unfold pegoutMarkerOutput at hmarker
    dsimp only at hmarker
    split at hmarker
    · cases hmarker
      rfl
    · cases hmarker
  have hrest : (change.toList.map fun v => (UInt64.ofNat v).toNat).sum = change.getD 0 := by
    cases change with
    | none => rfl
    | some v => exact (Nat.add_zero _).trans (hsats v hchange)
  unfold payoutShape
  rw [List.map_append, List.sum_append, List.map_map, List.map_cons, List.map_singleton,
    List.sum_cons, List.sum_singleton, hempty, Nat.add_zero]
  exact congrArg₂ HAdd.hAdd (hsats _ hvalue) hrest

omit [Bitcoin] in
theorem pegoutMarkerOutput_ne_panic (chainId : Bytes) (side : Txid) :
    pegoutMarkerOutput chainId side ≠ .panic := by
  intro h
  unfold pegoutMarkerOutput at h
  dsimp only at h
  split at h <;> cases h

omit [Bitcoin] in
theorem pegoutMarkerOutput_err {chainId : Bytes} {side : Txid} {e : PegoutError}
    (h : pegoutMarkerOutput chainId side = .err e) : e = .markerTooLong := by
  unfold pegoutMarkerOutput at h
  dsimp only at h
  split at h
  · cases h
  · exact (Res.err.inj h).symm

omit [Bitcoin] in
theorem inputSum_map [PsbtCodec] (fed : Federation) (tx : Transaction) (taken : List PegCoin) :
    (⟨tx, taken.map (pegInput fed)⟩ : Psbt).inputSum = coinSum taken := by
  unfold Psbt.inputSum coinSum
  rw [List.map_map]
  rfl

omit [Bitcoin] in
/-- **A co-signer's check accepts what the payer shapes**, unless the burn names
the script of its own marker. -/
theorem shaped_accepted [PsbtCodec] {fed : Federation} {chainId : Bytes} {burn : Burn}
    {script : Bytes} {marker : TxOut} {taken : List PegCoin} {change : Option ℕ} {maxFee : ℕ}
    (hvalue : burn.value ≤ Word.maxVal 64) (hscript : hexDecode burn.script = some script)
    (hmarker : pegoutMarkerOutput chainId burn.txid = .ok marker)
    (hown : script ≠ marker.scriptPubkey) (htaken : taken ≠ [])
    (hfits : coinSum taken ≤ Word.maxVal 64)
    (hpays : burn.value + change.getD 0 ≤ coinSum taken)
    (hcap : coinSum taken ≤ burn.value + change.getD 0 + maxFee) :
    checkPegoutPsbt ⟨payoutShape fed ⟨UInt64.ofNat burn.value, script⟩ marker taken change,
      taken.map (pegInput fed)⟩ fed chainId burn maxFee = none := by
  have hsats : (UInt64.ofNat burn.value).toNat = burn.value :=
    UInt64.toNat_ofNat_of_lt' (Nat.lt_of_le_of_lt hvalue (by decide))
  have hpay : ∀ outs, payIndex (⟨UInt64.ofNat burn.value, script⟩ :: outs) script burn.value =
      some 0 := by
    intro outs
    unfold payIndex TxOut.sats
    rw [List.findIdx?_cons, hsats, beq_self_eq_true, beq_self_eq_true]
    rfl
  have hmark : ∀ outs, markIndex (⟨UInt64.ofNat burn.value, script⟩ :: marker :: outs) marker =
      some 1 := by
    intro outs
    unfold markIndex
    rw [List.findIdx?_cons, beq_false_of_ne hown, List.findIdx?_cons, beq_self_eq_true]
    rfl
  have hothers : ((payoutShape fed ⟨UInt64.ofNat burn.value, script⟩ marker taken
      change).output.zipIdx.any fun p =>
        p.2 ≠ 0 && p.2 ≠ 1 && p.1.scriptPubkey ≠ fed.challenge) = false := by
    unfold payoutShape
    cases change <;> simp
  have hsum : Word.satSum 64 0 ((payoutShape fed ⟨UInt64.ofNat burn.value, script⟩ marker taken
      change).output.map TxOut.sats) = burn.value + change.getD 0 := by
    have houts := payoutShape_sum fed taken change script hvalue hmarker (by omega)
    rw [Word.satSum_eq _ _ (Nat.zero_le _), houts, Nat.zero_add]
    omega
  have hempty : ((taken.map (pegInput fed)).isEmpty || decide ((taken.map (pegInput fed)).length ≠
      (payoutShape fed ⟨UInt64.ofNat burn.value, script⟩ marker taken change).input.length)) =
      false := by
    unfold payoutShape
    rw [List.isEmpty_map, List.isEmpty_eq_false_iff.mpr htaken, List.length_map]
    simp
  unfold checkPegoutPsbt
  dsimp only
  rw [hmarker, hscript]
  dsimp only
  rw [hsum]
  unfold payoutShape at hothers hempty ⊢
  dsimp only at hothers hempty ⊢
  rw [List.cons_append, List.cons_append, List.nil_append] at hothers ⊢
  rw [hpay, hmark]
  dsimp only
  rw [hothers, hempty, pegInputs_map, Word.satSum_eq _ _ (Nat.zero_le _), Nat.zero_add]
  dsimp only
  have hin : min (taken.map fun c => c.value.toNat).sum (Word.maxVal 64) = coinSum taken :=
    Nat.min_eq_left hfits
  rw [hin, Word.checkedSub_eq_some.mpr ⟨hpays, rfl⟩]
  dsimp only
  rw [if_neg Bool.false_ne_true, if_neg Bool.false_ne_true, if_neg (by omega)]

/-- The change makes the transaction no smaller. -/
theorem vsizeWith_change (hbase : ∀ tx, Bitcoin.baseSize tx = strippedSize tx) (fed : Federation)
    (pay marker : TxOut) (taken : List PegCoin) (change : Option ℕ) :
    vsizeWith fed (payoutShape fed pay marker taken change) ≤
      vsizeWith fed (payoutShape fed pay marker taken (some 0)) := by
  have hstripped : strippedSize (payoutShape fed pay marker taken change) ≤
      strippedSize (payoutShape fed pay marker taken (some 0)) := by
    unfold strippedSize payoutShape
    cases change with
    | none =>
      have hcount : compactSize 2 = compactSize 3 := rfl
      simp [hcount]
    | some v => simp
  unfold vsizeWith
  rw [hbase, hbase]
  unfold payoutShape at hstripped ⊢
  dsimp only at hstripped ⊢
  omega

/-- Why the payer builds nothing: the burn or the federation cannot be used, or no
coins in order whose sum fits cover the burn and the fee. -/
inductive Refused [PsbtCodec] (fed : Federation) (chainId : Bytes) (burn : Burn)
    (coins : List PegCoin) (feeRate : ℕ) : Prop
  | script : hexDecode burn.script = none → Refused fed chainId burn coins feeRate
  | marker : pegoutMarkerOutput chainId burn.txid = .err .markerTooLong →
      Refused fed chainId burn coins feeRate
  | controlBlock : PsbtCodec.isControlBlock fed.controlBlock = false →
      Refused fed chainId burn coins feeRate
  | uncovered {script : Bytes} {marker : TxOut} : hexDecode burn.script = some script →
      pegoutMarkerOutput chainId burn.txid = .ok marker →
      (∀ c more, c :: more <+: coins.insertionSort (fun a b => coinLe a b) →
        coinSum (c :: more) ≤ Word.maxVal 64 →
        ¬ Covers fed ⟨UInt64.ofNat burn.value, script⟩ marker burn.value feeRate (c :: more)) →
      Refused fed chainId burn coins feeRate

section

variable [PsbtCodec] (hbase : ∀ tx, Bitcoin.baseSize tx = strippedSize tx)
  (hweight : ∀ tx : Transaction, tx.input ≠ [] → (∀ i ∈ tx.input, i.witness ≠ []) →
    Bitcoin.weight tx = 4 * Bitcoin.baseSize tx + 2 +
      (tx.input.map fun i => witnessLength (i.witness.map List.length)).sum)

include hbase hweight

/-- **The payer's payments pass the co-signers' check.** A payment built spends
distinct coins of the peg; its fee is what they hold over the outputs, at most the
rate's for the size with change and less than the dust limit more, and, unless they
hold all that fits 64 bits, at least the rate's for the finalised transaction. The
check accepts it under every cap from the fee on, unless the burn names its own
marker. Nothing is built only where `Refused` says why. -/
theorem payout_passes {fed : Federation} {chainId : Bytes} {burn : Burn} {coins : List PegCoin}
    {feeRate : ℕ} (hvalue : burn.value ≤ Word.maxVal 64)
    (hcoins : (coins.map PegCoin.outpoint).Nodup) :
    (∀ psbt, buildPegoutPsbt fed chainId burn coins feeRate = .ok psbt →
      ∃ script marker taken fee, hexDecode burn.script = some script ∧
        pegoutMarkerOutput chainId burn.txid = .ok marker ∧ PaysFrom fed coins taken psbt ∧
        psbt.inputSum = psbt.outputSum + fee ∧
        fee ≤ feeRate * vsizeWith fed
          (payoutShape fed ⟨UInt64.ofNat burn.value, script⟩ marker taken (some 0)) + 329 ∧
        (psbt.inputSum < Word.maxVal 64 → ∀ tx', Finalises fed psbt.unsignedTx tx' →
          feeRate * vsize tx' ≤ fee) ∧
        (script ≠ marker.scriptPubkey → ∀ maxFee, fee ≤ maxFee →
          checkPegoutPsbt psbt fed chainId burn maxFee = none)) ∧
    ∀ e, buildPegoutPsbt fed chainId burn coins feeRate = .err e →
      Refused fed chainId burn coins feeRate := by
  have hperm : (coins.insertionSort fun a b => coinLe a b).Perm coins := sorted_perm coins
  refine ⟨fun psbt h => ?_, fun e h => ?_⟩
  · unfold buildPegoutPsbt at h
    obtain ⟨script, hscript, h⟩ := Res.bind_eq_ok.mp h
    rw [Res.okOr_eq_ok] at hscript
    dsimp only at h
    obtain ⟨marker, hmarker, h⟩ := Res.bind_eq_ok.mp h
    obtain ⟨⟨taken, rest⟩, htaken, h⟩ := Res.bind_eq_ok.mp h
    dsimp only at h
    obtain ⟨_, -, h⟩ := Res.bind_eq_ok.mp h
    rw [Res.ok.injEq] at h
    obtain ⟨⟨c, more, hstart, hchosen⟩, hfits, hrest⟩ := chooseCoins_ok htaken rfl
    rw [List.nil_append] at hchosen
    rw [← hchosen] at hstart
    have hnonempty : taken ≠ [] := hchosen ▸ List.cons_ne_nil _ _
    have hin := inputSum_map fed (payoutShape fed ⟨UInt64.ofNat burn.value, script⟩ marker taken
      (if dust ≤ rest then some rest else none)) taken
    have hchange : (if dust ≤ rest then some rest else none).getD 0 ≤ rest ∧
        rest ≤ (if dust ≤ rest then some rest else none).getD 0 + 329 := by
      unfold dust
      split_ifs
      · exact ⟨le_rfl, Nat.le_add_right _ _⟩
      · exact ⟨Nat.zero_le _, by rw [Option.getD_none]; omega⟩
    have hsize := vsizeWith_change hbase fed ⟨UInt64.ofNat burn.value, script⟩ marker taken
      (if dust ≤ rest then some rest else none)
    rw [← h]
    generalize (if dust ≤ rest then some rest else none) = change at hin hchange hsize
    unfold payoutFee Word.satMul at hrest
    have hatLeast : burn.value ≤ Word.satAdd 64 burn.value (min (feeRate * vsizeWith fed
        (payoutShape fed ⟨UInt64.ofNat burn.value, script⟩ marker taken (some 0)))
        (Word.maxVal 64)) := Nat.le_min.mpr ⟨Nat.le_add_right _ _, hvalue⟩
    have hout := payoutShape_sum fed taken change script hvalue hmarker (by omega)
    have houtSum : (⟨payoutShape fed ⟨UInt64.ofNat burn.value, script⟩ marker taken change,
        taken.map (pegInput fed)⟩ : Psbt).outputSum = burn.value + change.getD 0 := hout
    refine ⟨script, marker, taken, coinSum taken - (burn.value + change.getD 0), hscript, hmarker,
      ?_, ?_, ?_, ?_, ?_⟩
    · have hinputs : (payoutShape fed ⟨UInt64.ofNat burn.value, script⟩ marker taken
          change).input.map TxIn.previousOutput = taken.map PegCoin.outpoint := by
        unfold payoutShape
        rw [List.map_map]
        rfl
      refine ⟨fun x hx => hperm.subset (hstart.subset hx), ?_, hinputs, ?_⟩
      · rw [hinputs]
        exact (hstart.sublist.map _).nodup ((hperm.map _).nodup_iff.mpr hcoins)
      · rw [List.map_map]
        rfl
    · rw [hin, houtSum]
      omega
    · unfold Word.satAdd at hrest
      omega
    · intro hlt tx' hfinal
      have hne : (payoutShape fed ⟨UInt64.ofNat burn.value, script⟩ marker taken change).input ≠
          [] := by
        unfold payoutShape
        exact fun hnil => hnonempty (List.map_eq_nil_iff.mp hnil)
      rw [vsize_finalised hbase hweight hfinal hne]
      rw [hin] at hlt
      have hrate := Nat.mul_le_mul_left feeRate hsize
      unfold Word.satAdd at hrest
      dsimp only at hrate ⊢
      omega
    · intro hown maxFee hcap
      exact shaped_accepted hvalue hscript hmarker hown hnonempty hfits (by omega) (by omega)
  · unfold buildPegoutPsbt at h
    cases hscript : hexDecode burn.script with
    | none => exact .script hscript
    | some script =>
      rw [hscript, Res.okOr_some, Res.ok_bind] at h
      dsimp only at h
      cases hmarker : pegoutMarkerOutput chainId burn.txid with
      | panic => exact absurd hmarker (pegoutMarkerOutput_ne_panic _ _)
      | err e' => exact .marker (pegoutMarkerOutput_err hmarker ▸ hmarker)
      | ok marker =>
        rw [hmarker, Res.ok_bind] at h
        cases htaken : chooseCoins fed ⟨UInt64.ofNat burn.value, script⟩ marker burn.value feeRate
            [] 0 (coins.insertionSort fun a b => coinLe a b) with
        | panic => exact absurd htaken chooseCoins_ne_panic
        | err e' => exact .uncovered hscript hmarker (chooseCoins_err htaken rfl)
        | ok taken =>
          rw [htaken, Res.ok_bind] at h
          cases hcontrol : PsbtCodec.isControlBlock fed.controlBlock with
          | false => exact .controlBlock hcontrol
          | true =>
            rw [hcontrol] at h
            cases h

end

end

/-! ### Where the payer and the check part -/

/-- The sample chain, its sizes those of the wire. -/
@[reducible] def sizedBitcoin : Bitcoin :=
  { sampleBitcoin with
    baseSize := strippedSize
    weight := fun tx => 4 * strippedSize tx + 2 +
      (tx.input.map fun i => witnessLength (i.witness.map List.length)).sum }

section

attribute [local instance] sizedBitcoin

@[reducible] def payerCodec : PsbtCodec := samplePsbtCodec []

attribute [local instance] payerCodec

/-- A coin of a million sats. -/
def sampleCoin : PegCoin := ⟨⟨9, 0⟩, 1000000⟩

/-- What is read off the sample: the burn's script and its marker, a script that is
not hex, and the sizes. -/
theorem sampleBurn_read : hexDecode sampleBurn.script = some [0x51, 0x51] ∧
    pegoutMarkerOutput (ascii ['d']) sampleBurn.txid =
      .ok ⟨0, opReturn (pegoutMarkerData (ascii ['d']) 7)⟩ ∧
    hexDecode (ascii ['z', 'z']) = none ∧ witnessSize sampleFederation ≤ 200 ∧
    compactSize sampleFederation.challenge.length + sampleFederation.challenge.length = 35 := by
  decide +kernel

/-- A burn of all the sats that fit, and the coin that holds them. -/
def fullBurn : Burn := ⟨7, 0, ascii ['5', '1', '5', '1'], Word.maxVal 64, 3⟩

def fullCoin : PegCoin := ⟨⟨9, 0⟩, 0xffffffffffffffff⟩

/-- A burn that names the script of its own marker. -/
def ownMarkerBurn : Burn :=
  ⟨7, 0, hexEncode (opReturn (pegoutMarkerData (ascii ['d']) 7)), 20000, 3⟩

/-- A burn whose script is not hex. -/
def unreadBurn : Burn := ⟨7, 0, ascii ['z', 'z'], 20000, 3⟩

set_option maxRecDepth 100000 in
/-- The payments that are built of the burns that can be paid. -/
theorem sample_pays :
    (buildPegoutPsbt sampleFederation (ascii ['d']) sampleBurn [sampleCoin] 2).any (fun psbt =>
      decide (psbt.inputSum ≤ psbt.outputSum + 10000 ∧ psbt.inputSum < Word.maxVal 64)) = true ∧
    (buildPegoutPsbt sampleFederation (ascii ['d']) fullBurn [fullCoin] 2).any (fun psbt =>
      decide (psbt.inputSum = psbt.outputSum)) = true ∧
    (buildPegoutPsbt sampleFederation (ascii ['d']) ownMarkerBurn [sampleCoin] 2).any (fun psbt =>
      decide (psbt.inputSum ≤ psbt.outputSum + 10000 ∧
        checkPegoutPsbt psbt sampleFederation (ascii ['d']) ownMarkerBurn 10000 =
          some .paysOther)) = true := by
  decide +kernel

/-- The payment of a burn of 20000 sats passes a cap of 10000. -/
theorem payout_passes_sample : ∃ psbt, buildPegoutPsbt sampleFederation (ascii ['d']) sampleBurn
    [sampleCoin] 2 = .ok psbt ∧
    checkPegoutPsbt psbt sampleFederation (ascii ['d']) sampleBurn 10000 = none := by
  obtain ⟨psbt, hbuilt, hfee⟩ := Res.any_eq_true.mp sample_pays.1
  obtain ⟨hcap, -⟩ := of_decide_eq_true hfee
  obtain ⟨script, marker, taken, fee, hscript, hmarker, -, hsum, -, -, haccept⟩ :=
    (payout_passes (fun _ => rfl) (fun _ _ _ => rfl) (by decide) (by decide)).1 psbt hbuilt
  refine ⟨psbt, hbuilt, haccept ?_ 10000 (by omega)⟩
  obtain ⟨hread, hown, -⟩ := sampleBurn_read
  rw [hread, Option.some.injEq] at hscript
  rw [hown, Res.ok.injEq] at hmarker
  rw [← hscript, ← hmarker]
  decide

set_option maxRecDepth 100000 in
/-- The fee of a payment of all that fits is nothing, at two sats a byte; the
payment of a burn that names its own marker is refused; and a burn whose script
is not hex is not paid, though the coin covers it. -/
theorem payer_parts :
    (∃ psbt, buildPegoutPsbt sampleFederation (ascii ['d']) fullBurn [fullCoin] 2 = .ok psbt ∧
      psbt.inputSum = psbt.outputSum ∧
      ∃ tx', Finalises sampleFederation psbt.unsignedTx tx' ∧ 0 < 2 * vsize tx') ∧
    (∃ psbt, buildPegoutPsbt sampleFederation (ascii ['d']) ownMarkerBurn [sampleCoin] 2 =
        .ok psbt ∧ psbt.inputSum ≤ psbt.outputSum + 10000 ∧
      checkPegoutPsbt psbt sampleFederation (ascii ['d']) ownMarkerBurn 10000 =
        some .paysOther) ∧
    buildPegoutPsbt sampleFederation (ascii ['d']) unreadBurn [sampleCoin] 2 = .err .burnScript ∧
    ∀ script marker : Bytes, script.length ≤ 1000 → marker.length ≤ 1000 →
      Covers sampleFederation ⟨20000, script⟩ ⟨0, marker⟩ 20000 2 [sampleCoin] := by
  refine ⟨?_, ?_, ?_, ?_⟩
  · obtain ⟨psbt, hbuilt, hsum⟩ := Res.any_eq_true.mp sample_pays.2.1
    refine ⟨psbt, hbuilt, of_decide_eq_true hsum, _, finalises_some sampleFederation _, ?_⟩
    unfold vsize
    change 0 < 2 * ((4 * strippedSize _ + 2 + _ + 3) / 4)
    omega
  · obtain ⟨psbt, hbuilt, hrefused⟩ := Res.any_eq_true.mp sample_pays.2.2
    exact ⟨psbt, hbuilt, of_decide_eq_true hrefused⟩
  · have hunread : hexDecode unreadBurn.script = none := sampleBurn_read.2.2.1
    unfold buildPegoutPsbt
    rw [hunread]
    rfl
  · intro script marker hscript hmarker
    have hs := compactSize_le script.length
    have hm := compactSize_le marker.length
    obtain ⟨-, -, -, hwitness, hchange⟩ := sampleBurn_read
    have hcounts := And.intro (compactSize_le 0)
      (And.intro (compactSize_le (0 + 1)) (compactSize_le (0 + 1 + 1 + 1)))
    have hbase : strippedSize (payoutShape sampleFederation ⟨20000, script⟩ ⟨0, marker⟩
        [sampleCoin] (some 0)) ≤ 2200 := by
      unfold strippedSize payoutShape
      simp only [List.map_cons, List.map_nil, List.length_cons, List.length_nil, List.cons_append,
        List.nil_append, Option.toList_some, List.sum_cons, List.sum_nil]
      omega
    unfold Covers vsizeWith
    change 20000 + 2 * ((strippedSize _ * 4 + (2 + 1 * witnessSize sampleFederation) + 3) / 4) ≤
      1000000
    omega

end

end Round

end Sidestr
