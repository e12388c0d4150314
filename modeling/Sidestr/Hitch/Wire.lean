/-
# The messages as JSON

The wire form of the ten messages two peers exchange (`wire.rs`): hex in lower
case of an exact length, integers of their width, the fields of an update beside
the message's own, the secrets of a sync under their state numbers as texts. A
message is read by trying the ten shapes in order; the `t` field tells them
apart. What is written is read back as itself, so no two messages share a text;
of a reject the reason comes back as its words.

Key definitions: `WireMessage`, `fieldsOf`, `readMessage`, `messageText`,
`parseMessage`, `Fits`.
Key theorems: `revealsCodec_keeps`, `Update.body_present`, `readMessage_fieldsOf`,
`parseMessage_messageText`.
-/
import Sidestr.Core.Serde
import Sidestr.Hitch.Opening

namespace Sidestr

open Reserve

namespace Hitch

namespace Wire

/-- Any message of the wire. -/
inductive WireMessage
  | open (m : OpenMessage)
  | accept (m : AcceptMessage)
  | peer (m : PeerMessage)
  deriving DecidableEq

/-! ### Names -/

def keyT : Bytes := ascii ['t']
def keyId : Bytes := ascii ['i', 'd']
def keyN : Bytes := ascii ['n']
def keySig : Bytes := ascii ['s', 'i', 'g']
def keyFunding : Bytes := ascii ['f', 'u', 'n', 'd', 'i', 'n', 'g']
def keyTxid : Bytes := ascii ['t', 'x', 'i', 'd']
def keyVout : Bytes := ascii ['v', 'o', 'u', 't']
def keyValue : Bytes := ascii ['v', 'a', 'l', 'u', 'e']
def keyPush : Bytes := ascii ['p', 'u', 's', 'h']
def keyDelay : Bytes := ascii ['d', 'e', 'l', 'a', 'y']
def keyFee : Bytes := ascii ['f', 'e', 'e']
def keyA : Bytes := ascii ['a']
def keyB : Bytes := ascii ['b']
def keyRev : Bytes := ascii ['r', 'e', 'v']
def keyRevBase : Bytes := ascii ['r', 'e', 'v', 'B', 'a', 's', 'e']
def keyPop : Bytes := ascii ['p', 'o', 'p']
def keyBase : Bytes := ascii ['b', 'a', 's', 'e']
def keyHubFee : Bytes := ascii ['h', 'u', 'b', 'F', 'e', 'e']
def keyReveal : Bytes := ascii ['r', 'e', 'v', 'e', 'a', 'l']
def keyNextRev : Bytes := ascii ['n', 'e', 'x', 't', 'R', 'e', 'v']
def keyNextRevPop : Bytes := ascii ['n', 'e', 'x', 't', 'R', 'e', 'v', 'P', 'o', 'p']
def keyReason : Bytes := ascii ['r', 'e', 'a', 's', 'o', 'n']
def keyStatus : Bytes := ascii ['s', 't', 'a', 't', 'u', 's']
def keyPendingN : Bytes := ascii ['p', 'e', 'n', 'd', 'i', 'n', 'g', 'N']
def keyMissing : Bytes := ascii ['m', 'i', 's', 's', 'i', 'n', 'g']
def keyReveals : Bytes := ascii ['r', 'e', 'v', 'e', 'a', 'l', 's']
def keyKind : Bytes := ascii ['k', 'i', 'n', 'd']
def keyAmount : Bytes := ascii ['a', 'm', 'o', 'u', 'n', 't']
def keyMemo : Bytes := ascii ['m', 'e', 'm', 'o']
def keyHtlc : Bytes := ascii ['h', 't', 'l', 'c']
def keyHtlcId : Bytes := ascii ['h', 't', 'l', 'c', 'I', 'd']
def keyPreimage : Bytes := ascii ['p', 'r', 'e', 'i', 'm', 'a', 'g', 'e']
def keyHash : Bytes := ascii ['h', 'a', 's', 'h']
def keyExpiry : Bytes := ascii ['e', 'x', 'p', 'i', 'r', 'y']
def keyRoute : Bytes := ascii ['r', 'o', 'u', 't', 'e']
def keyTo : Bytes := ascii ['t', 'o']

def tagOpen : Bytes := ascii ['o', 'p', 'e', 'n']
def tagAccept : Bytes := ascii ['a', 'c', 'c', 'e', 'p', 't']
def tagCommit : Bytes := ascii ['c', 'o', 'm', 'm', 'i', 't']
def tagReady : Bytes := ascii ['r', 'e', 'a', 'd', 'y']
def tagUpdate : Bytes := ascii ['u', 'p', 'd', 'a', 't', 'e']
def tagAck : Bytes := ascii ['a', 'c', 'k']
def tagRevoke : Bytes := ascii ['r', 'e', 'v', 'o', 'k', 'e']
def tagReject : Bytes := ascii ['r', 'e', 'j', 'e', 'c', 't']
def tagClose : Bytes := ascii ['c', 'l', 'o', 's', 'e']
def tagSync : Bytes := ascii ['s', 'y', 'n', 'c']
def tagSynced : Bytes := ascii ['s', 'y', 'n', 'c', 'e', 'd']

def kindPay : Bytes := ascii ['p', 'a', 'y']
def kindAdd : Bytes := ascii ['a', 'd', 'd']
def kindSettle : Bytes := ascii ['s', 'e', 't', 't', 'l', 'e']
def kindFail : Bytes := ascii ['f', 'a', 'i', 'l']

section

variable {F : Type}

/-! ### Field types -/

/-- Eight bytes as sixteen characters. -/
def channelCodec : Codec F ChannelId where
  write id := .str (hexEncode (leBytes 8 id.toNat).reverse)
  read v := ((hexCodec 8).read v).map fun b => BitVec.ofNat 64 (beNat b)

theorem channel_keeps (id : ChannelId) : (channelCodec (F := F)).Keeps id := by
  have hlen : (leBytes 8 id.toNat).reverse.length = 8 := by rw [List.length_reverse, length_leBytes]
  refine ⟨.str _, ?_⟩
  change ((hexCodec 8).read ((hexCodec (F := F) 8).write (leBytes 8 id.toNat).reverse)).map _ = _
  rw [(hex_keeps hlen).2, Option.map_some, beNat_reverse_leBytes]
  congr 1
  apply BitVec.eq_of_toNat_eq
  rw [BitVec.toNat_ofNat]
  have := id.isLt
  omega

def sigCodec : Codec F Sig := hexCodec 65

def popCodec : Codec F Bytes := hexCodec 64

/-- The key of a `reveals` entry. -/
def revealKey (k : Bytes) : Option ℕ :=
  if isPlainDecimal k = true ∧ decimal k < 2 ^ 64 then some (decimal k) else none

/-- An entry in the order of the keys; the later of two stays. -/
def insertReveal (e : ℕ × Hash256) : List (ℕ × Hash256) → List (ℕ × Hash256)
  | [] => [e]
  | x :: l =>
    if e.1 < x.1 then e :: x :: l else if e.1 = x.1 then e :: l else x :: insertReveal e l

def readReveal (f : Bytes × Json F) : Option (ℕ × Hash256) := do
  let n ← revealKey f.1
  let secret ← hashCodec.read f.2
  some (n, secret)

def revealsCodec : Codec F (List (ℕ × Hash256)) where
  write l := .obj (l.map fun e => (decimalText e.1, hashCodec.write e.2))
  read
    | .obj fields => (fields.mapM readReveal).map fun es => es.foldl (fun l e => insertReveal e l) []
    | _ => none

/-- Entries under rising 64-bit numbers. -/
def Rising (l : List (ℕ × Hash256)) : Prop :=
  l.Pairwise (fun x y => x.1 < y.1) ∧ ∀ e ∈ l, e.1 < 2 ^ 64

theorem insertReveal_last {e : ℕ × Hash256} : ∀ {l : List (ℕ × Hash256)},
    (∀ x ∈ l, x.1 < e.1) → insertReveal e l = l ++ [e]
  | [], _ => rfl
  | x :: l, h => by
    have hx := h x List.mem_cons_self
    rw [insertReveal, if_neg (by omega), if_neg (by omega),
      insertReveal_last fun y hy => h y (List.mem_cons_of_mem x hy)]
    rfl

theorem foldl_insertReveal : ∀ {l done : List (ℕ × Hash256)},
    (done ++ l).Pairwise (fun x y => x.1 < y.1) →
    l.foldl (fun l e => insertReveal e l) done = done ++ l
  | [], done, _ => (List.append_nil done).symm
  | e :: l, done, h => by
    have hbelow : ∀ x ∈ done, x.1 < e.1 := fun x hx =>
      (List.pairwise_append.mp h).2.2 x hx e List.mem_cons_self
    rw [List.foldl_cons, insertReveal_last hbelow, foldl_insertReveal, List.append_assoc]
    · rfl
    · rw [List.append_assoc]
      exact h

theorem reveals_keeps {l : List (ℕ × Hash256)} (h : Rising l) :
    (revealsCodec (F := F)).Keeps l := by
  constructor
  · apply Integral.obj
    intro f hf
    obtain ⟨e, -, rfl⟩ := List.mem_map.mp hf
    exact (hash_keeps e.2).1
  · have hread : (l.map fun e => (decimalText e.1, hashCodec.write (F := F) e.2)).mapM readReveal =
        some l := by
      apply mapM_map_some
      intro e he
      have hkey : revealKey (decimalText e.1) = some e.1 := by
        unfold revealKey
        rw [decimal_decimalText, if_pos ⟨isPlainDecimal_decimalText e.1, h.2 e he⟩]
      unfold readReveal
      rw [hkey]
      change (hashCodec.read (hashCodec.write (F := F) e.2)).bind (fun s => some (e.1, s)) = some e
      rw [(hash_keeps e.2).2]
      rfl
    change ((l.map fun e => (decimalText e.1, hashCodec.write (F := F) e.2)).mapM readReveal).map _ = _
    rw [hread, Option.map_some, @foldl_insertReveal l [] h.1]
    rfl

variable [Bitcoin]

/-- 32 bytes on the curve. -/
def IsNode (p : Point) : Prop := Bitcoin.isXOnly (displayBytes p) = true

instance (p : Point) : Decidable (IsNode p) := inferInstanceAs (Decidable (_ = true))

/-- An x-only key. -/
def nodeCodec : Codec F Point where
  write p := .str (hashText p)
  read v := (hashCodec.read v).bind fun p => if IsNode p then some p else none

theorem node_keeps {p : Point} (h : IsNode p) : (nodeCodec (F := F)).Keeps p := by
  refine ⟨.str _, ?_⟩
  change (hashCodec.read (hashCodec.write (F := F) p)).bind _ = _
  rw [(hash_keeps p).2, Option.bind_some, if_pos h]

/-- The next hop: a struct of its own. -/
def routeCodec : Codec F Point :=
  structCodec [keyTo] (fun p => [(keyTo, some (nodeCodec.write p))]) (required nodeCodec keyTo)

theorem route_keeps {p : Point} (h : IsNode p) : (routeCodec (F := F)).Keeps p := by
  apply struct_keeps
  · exact List.forall_mem_singleton.mpr (whole_some (node_keeps h).1)
  · exact required_present (List.nodup_singleton keyTo) List.mem_cons_self (node_keeps h)

/-! ### Updates -/

def OfferedHtlc.fields (h : OfferedHtlc) : List (Bytes × Option (Json F)) :=
  [(keyId, some ((uintCodec 64).write h.id)), (keyAmount, some ((uintCodec 64).write h.amount)),
    (keyHash, some (hashCodec.write h.hash)), (keyExpiry, some ((uintCodec 32).write h.expiry)),
    (keyRoute, h.route.map routeCodec.write)]

def OfferedHtlc.body (fields : List (Bytes × Json F)) : Option OfferedHtlc := do
  let id ← required (uintCodec 64) keyId fields
  let amount ← required (uintCodec 64) keyAmount fields
  let hash ← required hashCodec keyHash fields
  let expiry ← required (uintCodec 32) keyExpiry fields
  let route ← defaulted (optCodec routeCodec) none keyRoute fields
  some ⟨id, amount, hash, expiry, route⟩

def htlcCodec : Codec F OfferedHtlc :=
  structCodec [keyId, keyAmount, keyHash, keyExpiry, keyRoute] OfferedHtlc.fields OfferedHtlc.body

/-- The offer's numbers are of their widths. -/
structure OfferedHtlc.Fits (h : OfferedHtlc) : Prop where
  id : h.id < 2 ^ 64
  amount : h.amount < 2 ^ 64
  expiry : h.expiry < 2 ^ 32
  route : ∀ p ∈ h.route, IsNode p

theorem htlc_keeps {h : OfferedHtlc} (hfits : OfferedHtlc.Fits h) : (htlcCodec (F := F)).Keeps h := by
  have hid := uint_keeps (F := F) (le_refl 64) hfits.id
  have hamount := uint_keeps (F := F) (le_refl 64) hfits.amount
  have hexpiry := uint_keeps (F := F) (by decide : 32 ≤ 64) hfits.expiry
  have hroute : ∀ p ∈ h.route, (routeCodec (F := F)).Keeps p := fun p hp =>
    route_keeps (hfits.route p hp)
  have hnodup : ((OfferedHtlc.fields (F := F) h).map Prod.fst).Nodup :=
    (by decide : [keyId, keyAmount, keyHash, keyExpiry, keyRoute].Nodup)
  apply struct_keeps
  · simp only [OfferedHtlc.fields, List.forall_mem_cons]
    exact ⟨whole_some hid.1, whole_some hamount.1, whole_some (hash_keeps _).1,
      whole_some hexpiry.1, whole_map hroute, List.forall_mem_nil _⟩
  · unfold OfferedHtlc.body
    rw [required_present hnodup (by simp [OfferedHtlc.fields]) hid,
      required_present hnodup (by simp [OfferedHtlc.fields]) hamount,
      required_present hnodup (by simp [OfferedHtlc.fields]) (hash_keeps h.hash),
      required_present hnodup (by simp [OfferedHtlc.fields]) hexpiry,
      defaulted_skipped hnodup (by simp [OfferedHtlc.fields]) rfl hroute]
    rfl

/-- The fields an update adds to its message's. -/
def Update.fields : Update → List (Bytes × Option (Json F))
  | .pay amount memo =>
    [(keyKind, some (.str kindPay)), (keyAmount, some ((uintCodec 64).write amount)),
      (keyMemo, memo.map textCodec.write)]
  | .add htlc memo =>
    [(keyKind, some (.str kindAdd)), (keyHtlc, some (htlcCodec.write htlc)),
      (keyMemo, memo.map textCodec.write)]
  | .settle htlcId preimage =>
    [(keyKind, some (.str kindSettle)), (keyHtlcId, some ((uintCodec 64).write htlcId)),
      (keyPreimage, some (hashCodec.write preimage))]
  | .fail htlcId reason =>
    [(keyKind, some (.str kindFail)), (keyHtlcId, some ((uintCodec 64).write htlcId)),
      (keyReason, reason.map textCodec.write)]

inductive Kind
  | pay | add | settle | fail
  deriving DecidableEq

/-- The kind by its name, or by its place. -/
def readKind : Json F → Option Kind
  | .str s =>
    if s = kindPay then some .pay
    else if s = kindAdd then some .add
    else if s = kindSettle then some .settle
    else if s = kindFail then some .fail
    else none
  | .posInt n => [Kind.pay, .add, .settle, .fail][n.toNat]?
  | _ => none

def readPay (fields : List (Bytes × Json F)) : Option Update := do
  let amount ← required (uintCodec 64) keyAmount fields
  let memo ← defaulted (optCodec textCodec) none keyMemo fields
  some (.pay amount memo)

def readAdd (fields : List (Bytes × Json F)) : Option Update := do
  let htlc ← required htlcCodec keyHtlc fields
  let memo ← defaulted (optCodec textCodec) none keyMemo fields
  some (.add htlc memo)

def readSettle (fields : List (Bytes × Json F)) : Option Update := do
  let htlcId ← required (uintCodec 64) keyHtlcId fields
  let preimage ← required hashCodec keyPreimage fields
  some (.settle htlcId preimage)

def readFail (fields : List (Bytes × Json F)) : Option Update := do
  let htlcId ← required (uintCodec 64) keyHtlcId fields
  let reason ← defaulted (optCodec textCodec) none keyReason fields
  some (.fail htlcId reason)

/-- An update from the fields its message leaves. -/
def Update.body (fields : List (Bytes × Json F)) : Option Update := do
  let kind ← fieldOnce keyKind fields
  let kind ← kind.bind readKind
  match kind with
  | .pay => readPay fields
  | .add => readAdd fields
  | .settle => readSettle fields
  | .fail => readFail fields

def Update.Fits : Update → Prop
  | .pay amount _ => amount < 2 ^ 64
  | .add htlc _ => OfferedHtlc.Fits htlc
  | .settle htlcId _ => htlcId < 2 ^ 64
  | .fail htlcId _ => htlcId < 2 ^ 64

theorem Update.whole {u : Update} (h : Update.Fits u) : ∀ f ∈ Update.fields (F := F) u, Whole f := by
  cases u with
  | pay amount memo =>
    simp only [Update.fields, List.forall_mem_cons]
    exact ⟨whole_some (.str _), whole_some (uint_keeps (le_refl 64) h).1,
      whole_map fun t _ => text_keeps t, List.forall_mem_nil _⟩
  | add htlc memo =>
    simp only [Update.fields, List.forall_mem_cons]
    exact ⟨whole_some (.str _), whole_some (htlc_keeps h).1, whole_map fun t _ => text_keeps t,
      List.forall_mem_nil _⟩
  | settle htlcId preimage =>
    simp only [Update.fields, List.forall_mem_cons]
    exact ⟨whole_some (.str _), whole_some (uint_keeps (le_refl 64) h).1,
      whole_some (hash_keeps _).1, List.forall_mem_nil _⟩
  | fail htlcId reason =>
    simp only [Update.fields, List.forall_mem_cons]
    exact ⟨whole_some (.str _), whole_some (uint_keeps (le_refl 64) h).1,
      whole_map fun t _ => text_keeps t, List.forall_mem_nil _⟩

/-- The update is read from any struct its fields stand in once. -/
theorem Update.body_present {u : Update} (h : Update.Fits u)
    {fields : List (Bytes × Option (Json F))} (hnodup : (fields.map Prod.fst).Nodup)
    (hsub : ∀ f ∈ Update.fields (F := F) u, f ∈ fields) : Update.body (present fields) = some u := by
  cases u with
  | pay amount memo =>
    simp only [Update.fields, List.forall_mem_cons] at hsub
    obtain ⟨hkind, hamount, hmemo, -⟩ := hsub
    unfold Update.body
    rw [fieldOnce_present hnodup hkind]
    change readPay (present fields) = _
    unfold readPay
    rw [required_present hnodup hamount (uint_keeps (le_refl 64) h),
      defaulted_skipped hnodup hmemo rfl fun t _ => text_keeps t]
    rfl
  | add htlc memo =>
    simp only [Update.fields, List.forall_mem_cons] at hsub
    obtain ⟨hkind, hhtlc, hmemo, -⟩ := hsub
    unfold Update.body
    rw [fieldOnce_present hnodup hkind]
    change readAdd (present fields) = _
    unfold readAdd
    rw [required_present hnodup hhtlc (htlc_keeps h),
      defaulted_skipped hnodup hmemo rfl fun t _ => text_keeps t]
    rfl
  | settle htlcId preimage =>
    simp only [Update.fields, List.forall_mem_cons] at hsub
    obtain ⟨hkind, hid, hpreimage, -⟩ := hsub
    unfold Update.body
    rw [fieldOnce_present hnodup hkind]
    change readSettle (present fields) = _
    unfold readSettle
    rw [required_present hnodup hid (uint_keeps (le_refl 64) h),
      required_present hnodup hpreimage (hash_keeps preimage)]
    rfl
  | fail htlcId reason =>
    simp only [Update.fields, List.forall_mem_cons] at hsub
    obtain ⟨hkind, hid, hreason, -⟩ := hsub
    unfold Update.body
    rw [fieldOnce_present hnodup hkind]
    change readFail (present fields) = _
    unfold readFail
    rw [required_present hnodup hid (uint_keeps (le_refl 64) h),
      defaulted_skipped hnodup hreason rfl fun t _ => text_keeps t]
    rfl

/-- The message's own fields do not matter to the update. -/
theorem Update.body_filter {p : Bytes → Bool} (hp : ∀ key ∈ [keyKind, keyAmount, keyMemo, keyHtlc,
    keyHtlcId, keyPreimage, keyReason], p key = true) (fields : List (Bytes × Json F)) :
    Update.body (fields.filter fun f => p f.1) = Update.body fields := by
  simp only [List.forall_mem_cons] at hp
  obtain ⟨hkind, hamount, hmemo, hhtlc, hid, hpreimage, hreason, -⟩ := hp
  unfold Update.body readPay readAdd readSettle readFail
  rw [fieldOnce_filter hkind, required_filter hamount, defaulted_filter hmemo,
    required_filter hhtlc, required_filter hid, required_filter hpreimage, defaulted_filter hreason]

/-! ### Openings -/

def FundingOffer.fields (f : FundingOffer) : List (Bytes × Option (Json F)) :=
  [(keyTxid, some (hashCodec.write f.txid)), (keyVout, some ((uintCodec 32).write f.vout.toNat)),
    (keyValue, some ((uintCodec 64).write f.value))]

def FundingOffer.body (fields : List (Bytes × Json F)) : Option FundingOffer := do
  let txid ← required hashCodec keyTxid fields
  let vout ← required (uintCodec 32) keyVout fields
  let value ← required (uintCodec 64) keyValue fields
  some ⟨txid, UInt32.ofNat vout, value⟩

def fundingCodec : Codec F FundingOffer :=
  structCodec [keyTxid, keyVout, keyValue] FundingOffer.fields FundingOffer.body

omit [Bitcoin] in
theorem funding_keeps {f : FundingOffer} (hvalue : f.value < 2 ^ 64) :
    (fundingCodec (F := F)).Keeps f := by
  have hv := uint_keeps (F := F) (le_refl 64) hvalue
  have hvout := uint_keeps (F := F) (by decide : 32 ≤ 64) f.vout.toNat_lt
  have hnodup : ((FundingOffer.fields (F := F) f).map Prod.fst).Nodup :=
    (by decide : [keyTxid, keyVout, keyValue].Nodup)
  apply struct_keeps
  · simp only [FundingOffer.fields, List.forall_mem_cons]
    exact ⟨whole_some (hash_keeps _).1, whole_some hvout.1, whole_some hv.1, List.forall_mem_nil _⟩
  · unfold FundingOffer.body
    rw [required_present hnodup (by simp [FundingOffer.fields]) (hash_keeps f.txid),
      required_present hnodup (by simp [FundingOffer.fields]) hvout,
      required_present hnodup (by simp [FundingOffer.fields]) hv]
    simp only [Option.bind_eq_bind, Option.bind_some, UInt32.ofNat_toNat]

def RevocationProofs.fields (p : RevocationProofs) : List (Bytes × Option (Json F)) :=
  [(keyBase, some (popCodec.write p.base)), (keyRev, some ((pairCodec popCodec).write p.rev))]

def RevocationProofs.body (fields : List (Bytes × Json F)) : Option RevocationProofs := do
  let base ← required popCodec keyBase fields
  let rev ← required (pairCodec popCodec) keyRev fields
  some ⟨base, rev⟩

def proofsCodec : Codec F RevocationProofs :=
  structCodec [keyBase, keyRev] RevocationProofs.fields RevocationProofs.body

structure RevocationProofs.Fits (p : RevocationProofs) : Prop where
  base : p.base.length = 64
  rev0 : p.rev.1.length = 64
  rev1 : p.rev.2.length = 64

omit [Bitcoin] in
theorem proofs_keeps {p : RevocationProofs} (h : RevocationProofs.Fits p) :
    (proofsCodec (F := F)).Keeps p := by
  have hbase : (popCodec (F := F)).Keeps p.base := hex_keeps h.base
  have hrev : (pairCodec (popCodec (F := F))).Keeps p.rev :=
    pair_keeps (hex_keeps h.rev0) (hex_keeps h.rev1)
  have hnodup : ((RevocationProofs.fields (F := F) p).map Prod.fst).Nodup :=
    (by decide : [keyBase, keyRev].Nodup)
  apply struct_keeps
  · simp only [RevocationProofs.fields, List.forall_mem_cons]
    exact ⟨whole_some hbase.1, whole_some hrev.1, List.forall_mem_nil _⟩
  · unfold RevocationProofs.body
    rw [required_present hnodup (by simp [RevocationProofs.fields]) hbase,
      required_present hnodup (by simp [RevocationProofs.fields]) hrev]
    rfl

/-! ### Messages -/

def OpenMessage.fields (m : OpenMessage) : List (Bytes × Option (Json F)) :=
  [(keyT, some (.str tagOpen)), (keyId, some (channelCodec.write m.id)),
    (keyFunding, some (fundingCodec.write m.funding)),
    (keyPush, some ((uintCodec 64).write m.push)), (keyDelay, some ((uintCodec 16).write m.delay)),
    (keyFee, some ((uintCodec 64).write m.fee)), (keyA, some (nodeCodec.write m.a)),
    (keyB, some (nodeCodec.write m.b)), (keyRev, some ((pairCodec nodeCodec).write m.rev)),
    (keyRevBase, some (nodeCodec.write m.revBase)), (keyPop, some (proofsCodec.write m.pop)),
    (keyHubFee, m.hubFee.map (uintCodec 64).write)]

def OpenMessage.names : List Bytes :=
  [keyT, keyId, keyFunding, keyPush, keyDelay, keyFee, keyA, keyB, keyRev, keyRevBase, keyPop,
    keyHubFee]

def OpenMessage.body (fields : List (Bytes × Json F)) : Option OpenMessage := do
  let id ← required channelCodec keyId fields
  let funding ← required fundingCodec keyFunding fields
  let push ← defaulted (uintCodec 64) 0 keyPush fields
  let delay ← required (uintCodec 16) keyDelay fields
  let fee ← required (uintCodec 64) keyFee fields
  let a ← required nodeCodec keyA fields
  let b ← required nodeCodec keyB fields
  let rev ← required (pairCodec nodeCodec) keyRev fields
  let revBase ← required nodeCodec keyRevBase fields
  let pop ← required proofsCodec keyPop fields
  let hubFee ← defaulted (optCodec (uintCodec 64)) none keyHubFee fields
  some ⟨id, funding, push, delay, fee, a, b, rev, revBase, pop, hubFee⟩

structure OpenMessage.Fits (m : OpenMessage) : Prop where
  value : m.funding.value < 2 ^ 64
  push : m.push < 2 ^ 64
  delay : m.delay < 2 ^ 16
  fee : m.fee < 2 ^ 64
  a : IsNode m.a
  b : IsNode m.b
  rev0 : IsNode m.rev.1
  rev1 : IsNode m.rev.2
  revBase : IsNode m.revBase
  pop : RevocationProofs.Fits m.pop
  hubFee : ∀ f ∈ m.hubFee, f < 2 ^ 64

def AcceptMessage.fields (m : AcceptMessage) : List (Bytes × Option (Json F)) :=
  [(keyT, some (.str tagAccept)), (keyId, some (channelCodec.write m.id)),
    (keyRev, some ((pairCodec nodeCodec).write m.rev)),
    (keyRevBase, some (nodeCodec.write m.revBase)), (keyPop, some (proofsCodec.write m.pop)),
    (keySig, some (sigCodec.write m.sig)), (keyHubFee, m.hubFee.map (uintCodec 64).write)]

def AcceptMessage.names : List Bytes := [keyT, keyId, keyRev, keyRevBase, keyPop, keySig, keyHubFee]

def AcceptMessage.body (fields : List (Bytes × Json F)) : Option AcceptMessage := do
  let id ← required channelCodec keyId fields
  let rev ← required (pairCodec nodeCodec) keyRev fields
  let revBase ← required nodeCodec keyRevBase fields
  let pop ← required proofsCodec keyPop fields
  let sig ← required sigCodec keySig fields
  let hubFee ← defaulted (optCodec (uintCodec 64)) none keyHubFee fields
  some ⟨id, rev, revBase, pop, sig, hubFee⟩

structure AcceptMessage.Fits (m : AcceptMessage) : Prop where
  rev0 : IsNode m.rev.1
  rev1 : IsNode m.rev.2
  revBase : IsNode m.revBase
  pop : RevocationProofs.Fits m.pop
  sig : m.sig.length = 65
  hubFee : ∀ f ∈ m.hubFee, f < 2 ^ 64

def CommitMessage.fields (m : CommitMessage) : List (Bytes × Option (Json F)) :=
  [(keyT, some (.str tagCommit)), (keyId, some (channelCodec.write m.id)),
    (keySig, some (sigCodec.write m.sig))]

def CommitMessage.body (fields : List (Bytes × Json F)) : Option CommitMessage := do
  let id ← required channelCodec keyId fields
  let sig ← required sigCodec keySig fields
  some ⟨id, sig⟩

def readyFields (id : ChannelId) : List (Bytes × Option (Json F)) :=
  [(keyT, some (.str tagReady)), (keyId, some (channelCodec.write id))]

def readyBody (fields : List (Bytes × Json F)) : Option ChannelId := required channelCodec keyId fields

def UpdateMessage.fields (m : UpdateMessage) : List (Bytes × Option (Json F)) :=
  [(keyT, some (.str tagUpdate)), (keyId, some (channelCodec.write m.id)),
    (keyN, some ((uintCodec 64).write m.n))] ++ Update.fields m.update ++
  [(keySig, some (sigCodec.write m.sig)), (keyNextRev, some (nodeCodec.write m.nextRev)),
    (keyNextRevPop, some (popCodec.write m.nextRevPop))]

/-- The message's own fields; the others are the update's. -/
def UpdateMessage.isOwn (key : Bytes) : Bool :=
  [keyT, keyId, keyN, keySig, keyNextRev, keyNextRevPop].contains key

def UpdateMessage.body (fields : List (Bytes × Json F)) : Option UpdateMessage := do
  let id ← required channelCodec keyId fields
  let n ← required (uintCodec 64) keyN fields
  let update ← Update.body (fields.filter fun f => !UpdateMessage.isOwn f.1)
  let sig ← required sigCodec keySig fields
  let nextRev ← required nodeCodec keyNextRev fields
  let nextRevPop ← required popCodec keyNextRevPop fields
  some ⟨id, n, update, sig, nextRev, nextRevPop⟩

structure UpdateMessage.Fits (m : UpdateMessage) : Prop where
  n : m.n < 2 ^ 64
  update : Update.Fits m.update
  sig : m.sig.length = 65
  nextRev : IsNode m.nextRev
  nextRevPop : m.nextRevPop.length = 64

def AckMessage.fields (m : AckMessage) : List (Bytes × Option (Json F)) :=
  [(keyT, some (.str tagAck)), (keyId, some (channelCodec.write m.id)),
    (keyN, some ((uintCodec 64).write m.n)), (keySig, some (sigCodec.write m.sig)),
    (keyReveal, some (hashCodec.write m.reveal)), (keyNextRev, some (nodeCodec.write m.nextRev)),
    (keyNextRevPop, some (popCodec.write m.nextRevPop))]

def AckMessage.names : List Bytes := [keyT, keyId, keyN, keySig, keyReveal, keyNextRev, keyNextRevPop]

def AckMessage.body (fields : List (Bytes × Json F)) : Option AckMessage := do
  let id ← required channelCodec keyId fields
  let n ← required (uintCodec 64) keyN fields
  let sig ← required sigCodec keySig fields
  let reveal ← required hashCodec keyReveal fields
  let nextRev ← required nodeCodec keyNextRev fields
  let nextRevPop ← required popCodec keyNextRevPop fields
  some ⟨id, n, sig, reveal, nextRev, nextRevPop⟩

structure AckMessage.Fits (m : AckMessage) : Prop where
  n : m.n < 2 ^ 64
  sig : m.sig.length = 65
  nextRev : IsNode m.nextRev
  nextRevPop : m.nextRevPop.length = 64

def RevokeMessage.fields (m : RevokeMessage) : List (Bytes × Option (Json F)) :=
  [(keyT, some (.str tagRevoke)), (keyId, some (channelCodec.write m.id)),
    (keyN, some ((uintCodec 64).write m.n)), (keyReveal, some (hashCodec.write m.reveal))]

def RevokeMessage.body (fields : List (Bytes × Json F)) : Option RevokeMessage := do
  let id ← required channelCodec keyId fields
  let n ← required (uintCodec 64) keyN fields
  let reveal ← required hashCodec keyReveal fields
  some ⟨id, n, reveal⟩

/-- The texts of the machine's errors. -/
class ErrorText where
  display : ProtocolError → Text

variable [ErrorText]

/-- The words a reject is sent with, cut to the length of a memo. -/
def reasonText : RejectReason → Text
  | .closeSigned => truncateUtf16 memoMax
      "a cooperative close at the current state is signed; answer it (a resync brings it again)".toList
  | .alreadyAgreed n => truncateUtf16 memoMax
      ("state ".toList ++ (toString n).toList ++ " is already agreed with a different update".toList)
  | .noProof => truncateUtf16 memoMax
      "the next revocation point comes without proof of its secret".toList
  | .badState error => truncateUtf16 memoMax (ErrorText.display error)
  | .badSignature => truncateUtf16 memoMax
      "the signature on my new commitment does not verify".toList
  | .collision => truncateUtf16 memoMax "collision: the lower key's update stands".toList
  | .text t => t

def RejectMessage.fields (m : RejectMessage) : List (Bytes × Option (Json F)) :=
  [(keyT, some (.str tagReject)), (keyId, some (channelCodec.write m.id)),
    (keyN, some ((uintCodec 64).write m.n)), (keySig, some (sigCodec.write m.sig)),
    (keyReason, (m.reason.map reasonText).map textCodec.write)]

def RejectMessage.names : List Bytes := [keyT, keyId, keyN, keySig, keyReason]

def RejectMessage.body (fields : List (Bytes × Json F)) : Option RejectMessage := do
  let id ← required channelCodec keyId fields
  let n ← required (uintCodec 64) keyN fields
  let sig ← required sigCodec keySig fields
  let reason ← defaulted (optCodec textCodec) none keyReason fields
  some ⟨id, n, sig, reason.map .text⟩

/-- A reject as the other side reads it. -/
def RejectMessage.heard (m : RejectMessage) : RejectMessage :=
  { m with reason := (m.reason.map reasonText).map .text }

def CloseMessage.fields (m : CloseMessage) : List (Bytes × Option (Json F)) :=
  [(keyT, some (.str tagClose)), (keyId, some (channelCodec.write m.id)),
    (keyN, some ((uintCodec 64).write m.n)), (keySig, some (sigCodec.write m.sig))]

def CloseMessage.body (fields : List (Bytes × Json F)) : Option CloseMessage := do
  let id ← required channelCodec keyId fields
  let n ← required (uintCodec 64) keyN fields
  let sig ← required sigCodec keySig fields
  some ⟨id, n, sig⟩

def syncTagText : SyncTag → Bytes
  | .sync => tagSync
  | .synced => tagSynced

def SyncMessage.fields (m : SyncMessage) : List (Bytes × Option (Json F)) :=
  [(keyT, some (.str (syncTagText m.t))), (keyId, some (channelCodec.write m.id)),
    (keyN, some ((uintCodec 64).write m.n)),
    (keyStatus, some ((optCodec textCodec).write m.status)),
    (keyPendingN, some ((optCodec (uintCodec 64)).write m.pendingN)),
    (keyReveal, some ((optCodec hashCodec).write m.reveal)),
    (keyMissing, some ((listCodec (uintCodec 64)).write m.missing)),
    (keyReveals, m.reveals.map revealsCodec.write)]

def SyncMessage.names : List Bytes :=
  [keyT, keyId, keyN, keyStatus, keyPendingN, keyReveal, keyMissing, keyReveals]

def SyncMessage.body (t : SyncTag) (fields : List (Bytes × Json F)) : Option SyncMessage := do
  let id ← required channelCodec keyId fields
  let n ← required (uintCodec 64) keyN fields
  let status ← defaulted (optCodec textCodec) none keyStatus fields
  let pendingN ← defaulted (optCodec (uintCodec 64)) none keyPendingN fields
  let reveal ← defaulted (optCodec hashCodec) none keyReveal fields
  let missing ← defaulted (listCodec (uintCodec 64)) [] keyMissing fields
  let reveals ← defaulted (optCodec revealsCodec) none keyReveals fields
  some ⟨t, id, n, status, pendingN, reveal, missing, reveals⟩

structure SyncMessage.Fits (m : SyncMessage) : Prop where
  n : m.n < 2 ^ 64
  pendingN : ∀ n ∈ m.pendingN, n < 2 ^ 64
  missing : ∀ n ∈ m.missing, n < 2 ^ 64
  reveals : ∀ l ∈ m.reveals, Rising l

/-! ### The message of a value -/

def fieldsOf : WireMessage → List (Bytes × Option (Json F))
  | .open m => OpenMessage.fields m
  | .accept m => AcceptMessage.fields m
  | .peer (.commit m) => CommitMessage.fields m
  | .peer (.ready id) => readyFields id
  | .peer (.update m) => UpdateMessage.fields m
  | .peer (.ack m) => AckMessage.fields m
  | .peer (.revoke m) => RevokeMessage.fields m
  | .peer (.reject m) => RejectMessage.fields m
  | .peer (.close m) => CloseMessage.fields m
  | .peer (.sync m) => SyncMessage.fields m

def writeMessage (m : WireMessage) : Json F := .obj (present (fieldsOf m))

/-- The shapes in the order they are tried. -/
def shapes : List (Shape F WireMessage) :=
  [⟨structFields OpenMessage.names, tagOpen, fun l => (OpenMessage.body l).map .open⟩,
    ⟨structFields AcceptMessage.names, tagAccept, fun l => (AcceptMessage.body l).map .accept⟩,
    ⟨structFields [keyT, keyId, keySig], tagCommit,
      fun l => (CommitMessage.body l).map fun m => .peer (.commit m)⟩,
    ⟨structFields [keyT, keyId], tagReady, fun l => (readyBody l).map fun id => .peer (.ready id)⟩,
    ⟨mapFields, tagUpdate, fun l => (UpdateMessage.body l).map fun m => .peer (.update m)⟩,
    ⟨structFields AckMessage.names, tagAck, fun l => (AckMessage.body l).map fun m => .peer (.ack m)⟩,
    ⟨structFields [keyT, keyId, keyN, keyReveal], tagRevoke,
      fun l => (RevokeMessage.body l).map fun m => .peer (.revoke m)⟩,
    ⟨structFields RejectMessage.names, tagReject,
      fun l => (RejectMessage.body l).map fun m => .peer (.reject m)⟩,
    ⟨structFields [keyT, keyId, keyN, keySig], tagClose,
      fun l => (CloseMessage.body l).map fun m => .peer (.close m)⟩,
    ⟨structFields SyncMessage.names, tagSync,
      fun l => (SyncMessage.body .sync l).map fun m => .peer (.sync m)⟩,
    ⟨structFields SyncMessage.names, tagSynced,
      fun l => (SyncMessage.body .synced l).map fun m => .peer (.sync m)⟩]

def readMessage (v : Json F) : Option WireMessage := readFirst keyT shapes v

/-- Every field of the message is in its type's range. -/
def Fits : WireMessage → Prop
  | .open m => OpenMessage.Fits m
  | .accept m => AcceptMessage.Fits m
  | .peer (.commit m) => m.sig.length = 65
  | .peer (.ready _) => True
  | .peer (.update m) => UpdateMessage.Fits m
  | .peer (.ack m) => AckMessage.Fits m
  | .peer (.revoke m) => m.n < 2 ^ 64
  | .peer (.reject m) => m.n < 2 ^ 64 ∧ m.sig.length = 65
  | .peer (.close m) => m.n < 2 ^ 64 ∧ m.sig.length = 65
  | .peer (.sync m) => SyncMessage.Fits m

/-- The message as the other side reads it. -/
def heard : WireMessage → WireMessage
  | .peer (.reject m) => .peer (.reject (RejectMessage.heard m))
  | m => m

/-- The text in a message's `t` field. -/
def tagOf : WireMessage → Bytes
  | .open _ => tagOpen
  | .accept _ => tagAccept
  | .peer (.commit _) => tagCommit
  | .peer (.ready _) => tagReady
  | .peer (.update _) => tagUpdate
  | .peer (.ack _) => tagAck
  | .peer (.revoke _) => tagRevoke
  | .peer (.reject _) => tagReject
  | .peer (.close _) => tagClose
  | .peer (.sync m) => syncTagText m.t

theorem tagOf_mem (m : WireMessage) : (keyT, some (.str (tagOf m))) ∈ fieldsOf (F := F) m := by
  rcases m with m | m | m
  · exact List.mem_cons_self
  · exact List.mem_cons_self
  · cases m <;> exact List.mem_cons_self

/-- No message has a field twice. -/
theorem fieldsOf_nodup (m : WireMessage) : ((fieldsOf (F := F) m).map Prod.fst).Nodup := by
  rcases m with m | m | m
  · exact (by decide : OpenMessage.names.Nodup)
  · exact (by decide : AcceptMessage.names.Nodup)
  · cases m with
    | commit m => exact (by decide : [keyT, keyId, keySig].Nodup)
    | ready id => exact (by decide : [keyT, keyId].Nodup)
    | update m =>
      obtain ⟨id, n, update, sig, nextRev, nextRevPop⟩ := m
      cases update with
      | pay amount memo =>
        exact (by decide : [keyT, keyId, keyN, keyKind, keyAmount, keyMemo, keySig, keyNextRev,
          keyNextRevPop].Nodup)
      | add htlc memo =>
        exact (by decide : [keyT, keyId, keyN, keyKind, keyHtlc, keyMemo, keySig, keyNextRev,
          keyNextRevPop].Nodup)
      | settle htlcId preimage =>
        exact (by decide : [keyT, keyId, keyN, keyKind, keyHtlcId, keyPreimage, keySig, keyNextRev,
          keyNextRevPop].Nodup)
      | fail htlcId reason =>
        exact (by decide : [keyT, keyId, keyN, keyKind, keyHtlcId, keyReason, keySig, keyNextRev,
          keyNextRevPop].Nodup)
    | ack m => exact (by decide : AckMessage.names.Nodup)
    | revoke m => exact (by decide : [keyT, keyId, keyN, keyReveal].Nodup)
    | reject m => exact (by decide : RejectMessage.names.Nodup)
    | close m => exact (by decide : [keyT, keyId, keyN, keySig].Nodup)
    | sync m => exact (by decide : SyncMessage.names.Nodup)

/-! ### Field by field -/

theorem OpenMessage.body_present {m : OpenMessage} (h : OpenMessage.Fits m) :
    OpenMessage.body (present (fieldsOf (F := F) (.open m))) = some m := by
  have hnodup := fieldsOf_nodup (F := F) (.open m)
  have hrev : (pairCodec (nodeCodec (F := F))).Keeps m.rev :=
    pair_keeps (node_keeps h.rev0) (node_keeps h.rev1)
  have hhub : ∀ f ∈ m.hubFee, (uintCodec (F := F) 64).Keeps f := fun f hf =>
    uint_keeps (le_refl 64) (h.hubFee f hf)
  unfold OpenMessage.body
  rw [required_present hnodup (by simp [fieldsOf, OpenMessage.fields]) (channel_keeps m.id),
    required_present hnodup (by simp [fieldsOf, OpenMessage.fields]) (funding_keeps h.value),
    defaulted_present hnodup (by simp [fieldsOf, OpenMessage.fields])
      (uint_keeps (le_refl 64) h.push),
    required_present hnodup (by simp [fieldsOf, OpenMessage.fields])
      (uint_keeps (by decide : 16 ≤ 64) h.delay),
    required_present hnodup (by simp [fieldsOf, OpenMessage.fields]) (uint_keeps (le_refl 64) h.fee),
    required_present hnodup (by simp [fieldsOf, OpenMessage.fields]) (node_keeps h.a),
    required_present hnodup (by simp [fieldsOf, OpenMessage.fields]) (node_keeps h.b),
    required_present hnodup (by simp [fieldsOf, OpenMessage.fields]) hrev,
    required_present hnodup (by simp [fieldsOf, OpenMessage.fields]) (node_keeps h.revBase),
    required_present hnodup (by simp [fieldsOf, OpenMessage.fields]) (proofs_keeps h.pop),
    defaulted_skipped hnodup (by simp [fieldsOf, OpenMessage.fields]) rfl hhub]
  rfl

theorem AcceptMessage.body_present {m : AcceptMessage} (h : AcceptMessage.Fits m) :
    AcceptMessage.body (present (fieldsOf (F := F) (.accept m))) = some m := by
  have hnodup := fieldsOf_nodup (F := F) (.accept m)
  have hrev : (pairCodec (nodeCodec (F := F))).Keeps m.rev :=
    pair_keeps (node_keeps h.rev0) (node_keeps h.rev1)
  have hhub : ∀ f ∈ m.hubFee, (uintCodec (F := F) 64).Keeps f := fun f hf =>
    uint_keeps (le_refl 64) (h.hubFee f hf)
  have hsig : (sigCodec (F := F)).Keeps m.sig := hex_keeps h.sig
  unfold AcceptMessage.body
  rw [required_present hnodup (by simp [fieldsOf, AcceptMessage.fields]) (channel_keeps m.id),
    required_present hnodup (by simp [fieldsOf, AcceptMessage.fields]) hrev,
    required_present hnodup (by simp [fieldsOf, AcceptMessage.fields]) (node_keeps h.revBase),
    required_present hnodup (by simp [fieldsOf, AcceptMessage.fields]) (proofs_keeps h.pop),
    required_present hnodup (by simp [fieldsOf, AcceptMessage.fields]) hsig,
    defaulted_skipped hnodup (by simp [fieldsOf, AcceptMessage.fields]) rfl hhub]
  rfl

theorem CommitMessage.body_present {m : CommitMessage} (h : m.sig.length = 65) :
    CommitMessage.body (present (fieldsOf (F := F) (.peer (.commit m)))) = some m := by
  have hnodup := fieldsOf_nodup (F := F) (.peer (.commit m))
  have hsig : (sigCodec (F := F)).Keeps m.sig := hex_keeps h
  unfold CommitMessage.body
  rw [required_present hnodup (by simp [fieldsOf, CommitMessage.fields]) (channel_keeps m.id),
    required_present hnodup (by simp [fieldsOf, CommitMessage.fields]) hsig]
  rfl

theorem UpdateMessage.body_present {m : UpdateMessage} (h : UpdateMessage.Fits m) :
    UpdateMessage.body (present (fieldsOf (F := F) (.peer (.update m)))) = some m := by
  have hnodup := fieldsOf_nodup (F := F) (.peer (.update m))
  have hsig : (sigCodec (F := F)).Keeps m.sig := hex_keeps h.sig
  have hpop : (popCodec (F := F)).Keeps m.nextRevPop := hex_keeps h.nextRevPop
  have hupdate : Update.body ((present (fieldsOf (F := F) (.peer (.update m)))).filter
      fun f => !UpdateMessage.isOwn f.1) = some m.update := by
    refine (Update.body_filter (p := fun key => !UpdateMessage.isOwn key) (by decide) _).trans ?_
    refine Update.body_present h.update hnodup fun f hf => ?_
    exact List.mem_append_left _ (List.mem_append_right _ hf)
  unfold UpdateMessage.body
  rw [hupdate, required_present hnodup (by simp [fieldsOf, UpdateMessage.fields]) (channel_keeps m.id),
    required_present hnodup (by simp [fieldsOf, UpdateMessage.fields]) (uint_keeps (le_refl 64) h.n),
    required_present hnodup (by simp [fieldsOf, UpdateMessage.fields]) hsig,
    required_present hnodup (by simp [fieldsOf, UpdateMessage.fields]) (node_keeps h.nextRev),
    required_present hnodup (by simp [fieldsOf, UpdateMessage.fields]) hpop]
  rfl

theorem AckMessage.body_present {m : AckMessage} (h : AckMessage.Fits m) :
    AckMessage.body (present (fieldsOf (F := F) (.peer (.ack m)))) = some m := by
  have hnodup := fieldsOf_nodup (F := F) (.peer (.ack m))
  have hsig : (sigCodec (F := F)).Keeps m.sig := hex_keeps h.sig
  have hpop : (popCodec (F := F)).Keeps m.nextRevPop := hex_keeps h.nextRevPop
  unfold AckMessage.body
  rw [required_present hnodup (by simp [fieldsOf, AckMessage.fields]) (channel_keeps m.id),
    required_present hnodup (by simp [fieldsOf, AckMessage.fields]) (uint_keeps (le_refl 64) h.n),
    required_present hnodup (by simp [fieldsOf, AckMessage.fields]) hsig,
    required_present hnodup (by simp [fieldsOf, AckMessage.fields]) (hash_keeps m.reveal),
    required_present hnodup (by simp [fieldsOf, AckMessage.fields]) (node_keeps h.nextRev),
    required_present hnodup (by simp [fieldsOf, AckMessage.fields]) hpop]
  rfl

theorem RevokeMessage.body_present {m : RevokeMessage} (h : m.n < 2 ^ 64) :
    RevokeMessage.body (present (fieldsOf (F := F) (.peer (.revoke m)))) = some m := by
  have hnodup := fieldsOf_nodup (F := F) (.peer (.revoke m))
  unfold RevokeMessage.body
  rw [required_present hnodup (by simp [fieldsOf, RevokeMessage.fields]) (channel_keeps m.id),
    required_present hnodup (by simp [fieldsOf, RevokeMessage.fields]) (uint_keeps (le_refl 64) h),
    required_present hnodup (by simp [fieldsOf, RevokeMessage.fields]) (hash_keeps m.reveal)]
  rfl

theorem RejectMessage.body_present {m : RejectMessage} (hn : m.n < 2 ^ 64) (h : m.sig.length = 65) :
    RejectMessage.body (present (fieldsOf (F := F) (.peer (.reject m)))) =
      some (RejectMessage.heard m) := by
  have hnodup := fieldsOf_nodup (F := F) (.peer (.reject m))
  have hsig : (sigCodec (F := F)).Keeps m.sig := hex_keeps h
  unfold RejectMessage.body
  rw [required_present hnodup (by simp [fieldsOf, RejectMessage.fields]) (channel_keeps m.id),
    required_present hnodup (by simp [fieldsOf, RejectMessage.fields]) (uint_keeps (le_refl 64) hn),
    required_present hnodup (by simp [fieldsOf, RejectMessage.fields]) hsig,
    defaulted_skipped (o := m.reason.map reasonText) hnodup
      (by simp [fieldsOf, RejectMessage.fields]) rfl fun t _ => text_keeps t]
  rfl

theorem CloseMessage.body_present {m : CloseMessage} (hn : m.n < 2 ^ 64) (h : m.sig.length = 65) :
    CloseMessage.body (present (fieldsOf (F := F) (.peer (.close m)))) = some m := by
  have hnodup := fieldsOf_nodup (F := F) (.peer (.close m))
  have hsig : (sigCodec (F := F)).Keeps m.sig := hex_keeps h
  unfold CloseMessage.body
  rw [required_present hnodup (by simp [fieldsOf, CloseMessage.fields]) (channel_keeps m.id),
    required_present hnodup (by simp [fieldsOf, CloseMessage.fields]) (uint_keeps (le_refl 64) hn),
    required_present hnodup (by simp [fieldsOf, CloseMessage.fields]) hsig]
  rfl

theorem SyncMessage.body_present {m : SyncMessage} (h : SyncMessage.Fits m) :
    SyncMessage.body m.t (present (fieldsOf (F := F) (.peer (.sync m)))) = some m := by
  have hnodup := fieldsOf_nodup (F := F) (.peer (.sync m))
  have hstatus : (optCodec (textCodec (F := F))).Keeps m.status :=
    opt_keeps rfl fun t _ => text_keeps t
  have hpending : (optCodec (uintCodec (F := F) 64)).Keeps m.pendingN :=
    opt_keeps rfl fun n hn => uint_keeps (le_refl 64) (h.pendingN n hn)
  have hreveal : (optCodec (hashCodec (F := F))).Keeps m.reveal :=
    opt_keeps rfl fun s _ => hash_keeps s
  have hmissing : (listCodec (uintCodec (F := F) 64)).Keeps m.missing :=
    list_keeps fun n hn => uint_keeps (le_refl 64) (h.missing n hn)
  unfold SyncMessage.body
  rw [required_present hnodup (by simp [fieldsOf, SyncMessage.fields]) (channel_keeps m.id),
    required_present hnodup (by simp [fieldsOf, SyncMessage.fields]) (uint_keeps (le_refl 64) h.n),
    defaulted_present hnodup (by simp [fieldsOf, SyncMessage.fields]) hstatus,
    defaulted_present hnodup (by simp [fieldsOf, SyncMessage.fields]) hpending,
    defaulted_present hnodup (by simp [fieldsOf, SyncMessage.fields]) hreveal,
    defaulted_present hnodup (by simp [fieldsOf, SyncMessage.fields]) hmissing,
    defaulted_skipped hnodup (by simp [fieldsOf, SyncMessage.fields]) rfl fun l hl =>
      reveals_keeps (h.reveals l hl)]
  rfl

/-- Every field of a message in range has no fractional numbers. -/
theorem whole_fieldsOf {m : WireMessage} (h : Fits m) : ∀ f ∈ fieldsOf (F := F) m, Whole f := by
  rcases m with m | m | m
  · simp only [fieldsOf, OpenMessage.fields, List.forall_mem_cons]
    exact ⟨whole_some (.str _), whole_some (channel_keeps _).1, whole_some (funding_keeps h.value).1,
      whole_some (uint_keeps (le_refl 64) h.push).1,
      whole_some (uint_keeps (by decide : 16 ≤ 64) h.delay).1,
      whole_some (uint_keeps (le_refl 64) h.fee).1, whole_some (node_keeps h.a).1,
      whole_some (node_keeps h.b).1,
      whole_some (pair_keeps (node_keeps h.rev0) (node_keeps h.rev1)).1,
      whole_some (node_keeps h.revBase).1, whole_some (proofs_keeps h.pop).1,
      whole_map fun f hf => uint_keeps (le_refl 64) (h.hubFee f hf), List.forall_mem_nil _⟩
  · simp only [fieldsOf, AcceptMessage.fields, List.forall_mem_cons]
    exact ⟨whole_some (.str _), whole_some (channel_keeps _).1,
      whole_some (pair_keeps (node_keeps h.rev0) (node_keeps h.rev1)).1,
      whole_some (node_keeps h.revBase).1, whole_some (proofs_keeps h.pop).1,
      whole_some (hex_keeps h.sig).1, whole_map fun f hf => uint_keeps (le_refl 64) (h.hubFee f hf),
      List.forall_mem_nil _⟩
  · cases m with
    | commit m =>
      simp only [fieldsOf, CommitMessage.fields, List.forall_mem_cons]
      exact ⟨whole_some (.str _), whole_some (channel_keeps _).1, whole_some (hex_keeps h).1,
        List.forall_mem_nil _⟩
    | ready id =>
      simp only [fieldsOf, readyFields, List.forall_mem_cons]
      exact ⟨whole_some (.str _), whole_some (channel_keeps _).1, List.forall_mem_nil _⟩
    | update m =>
      simp only [fieldsOf, UpdateMessage.fields, List.forall_mem_append, List.forall_mem_cons]
      exact ⟨⟨⟨whole_some (.str _), whole_some (channel_keeps _).1,
        whole_some (uint_keeps (le_refl 64) h.n).1, List.forall_mem_nil _⟩, Update.whole h.update⟩,
        whole_some (hex_keeps h.sig).1, whole_some (node_keeps h.nextRev).1,
        whole_some (hex_keeps h.nextRevPop).1, List.forall_mem_nil _⟩
    | ack m =>
      simp only [fieldsOf, AckMessage.fields, List.forall_mem_cons]
      exact ⟨whole_some (.str _), whole_some (channel_keeps _).1,
        whole_some (uint_keeps (le_refl 64) h.n).1, whole_some (hex_keeps h.sig).1,
        whole_some (hash_keeps _).1, whole_some (node_keeps h.nextRev).1,
        whole_some (hex_keeps h.nextRevPop).1, List.forall_mem_nil _⟩
    | revoke m =>
      simp only [fieldsOf, RevokeMessage.fields, List.forall_mem_cons]
      exact ⟨whole_some (.str _), whole_some (channel_keeps _).1,
        whole_some (uint_keeps (le_refl 64) h).1, whole_some (hash_keeps _).1, List.forall_mem_nil _⟩
    | reject m =>
      simp only [fieldsOf, RejectMessage.fields, List.forall_mem_cons]
      exact ⟨whole_some (.str _), whole_some (channel_keeps _).1,
        whole_some (uint_keeps (le_refl 64) h.1).1, whole_some (hex_keeps h.2).1,
        whole_map fun t _ => text_keeps t, List.forall_mem_nil _⟩
    | close m =>
      simp only [fieldsOf, CloseMessage.fields, List.forall_mem_cons]
      exact ⟨whole_some (.str _), whole_some (channel_keeps _).1,
        whole_some (uint_keeps (le_refl 64) h.1).1, whole_some (hex_keeps h.2).1,
        List.forall_mem_nil _⟩
    | sync m =>
      simp only [fieldsOf, SyncMessage.fields, List.forall_mem_cons]
      exact ⟨whole_some (.str _), whole_some (channel_keeps _).1,
        whole_some (uint_keeps (le_refl 64) h.n).1,
        whole_some (opt_keeps rfl fun t _ => text_keeps t).1,
        whole_some (opt_keeps rfl fun n hn => uint_keeps (le_refl 64) (h.pendingN n hn)).1,
        whole_some (opt_keeps rfl fun s _ => hash_keeps s).1,
        whole_some (list_keeps fun n hn => uint_keeps (le_refl 64) (h.missing n hn)).1,
        whole_map fun l hl => reveals_keeps (h.reveals l hl), List.forall_mem_nil _⟩

omit [ErrorText] in
theorem shapes_obj : ∀ s ∈ shapes (F := F), ∀ l, s.shape (.obj l) = some l := by
  simp only [shapes, List.forall_mem_cons]
  exact ⟨fun _ => rfl, fun _ => rfl, fun _ => rfl, fun _ => rfl, fun _ => rfl, fun _ => rfl,
    fun _ => rfl, fun _ => rfl, fun _ => rfl, fun _ => rfl, fun _ => rfl, List.forall_mem_nil _⟩

omit [ErrorText] in
theorem shapes_texts : ((shapes (F := F)).map Shape.text).Nodup :=
  (by decide : [tagOpen, tagAccept, tagCommit, tagReady, tagUpdate, tagAck, tagRevoke, tagReject,
    tagClose, tagSync, tagSynced].Nodup)

/-- The shape of its `t` field reads a message. -/
theorem readMessage_of {m m' : WireMessage} {s : Shape F WireMessage} (i : ℕ)
    (hs : shapes[i]? = some s) (htext : s.text = tagOf m)
    (hbody : s.body (present (fieldsOf m)) = some m') : readMessage (writeMessage (F := F) m) = some m' :=
  readFirst_present (fieldsOf_nodup m) (htext ▸ tagOf_mem m) hbody shapes_obj shapes_texts
    (List.mem_of_getElem? hs)

/-- **What is written is read back**: the shapes before the message's own refuse
it, its own reads every field. -/
theorem readMessage_fieldsOf {m : WireMessage} (h : Fits m) :
    readMessage (writeMessage (F := F) m) = some (heard m) := by
  rcases m with m | m | m
  · exact readMessage_of 0 rfl rfl (congrArg (Option.map _) (OpenMessage.body_present h))
  · exact readMessage_of 1 rfl rfl (congrArg (Option.map _) (AcceptMessage.body_present h))
  · cases m with
    | commit m => exact readMessage_of 2 rfl rfl (congrArg (Option.map _) (CommitMessage.body_present h))
    | ready id =>
      have hid : readyBody (present (fieldsOf (F := F) (.peer (.ready id)))) = some id :=
        required_present (fieldsOf_nodup _) (List.mem_cons_of_mem _ List.mem_cons_self)
          (channel_keeps id)
      exact readMessage_of 3 rfl rfl (congrArg (Option.map _) hid)
    | update m => exact readMessage_of 4 rfl rfl (congrArg (Option.map _) (UpdateMessage.body_present h))
    | ack m => exact readMessage_of 5 rfl rfl (congrArg (Option.map _) (AckMessage.body_present h))
    | revoke m => exact readMessage_of 6 rfl rfl (congrArg (Option.map _) (RevokeMessage.body_present h))
    | reject m =>
      exact readMessage_of 7 rfl rfl (congrArg (Option.map _) (RejectMessage.body_present h.1 h.2))
    | close m =>
      exact readMessage_of 8 rfl rfl (congrArg (Option.map _) (CloseMessage.body_present h.1 h.2))
    | sync m =>
      have hbody := SyncMessage.body_present (F := F) h
      obtain ⟨t, id, n, status, pendingN, reveal, missing, reveals⟩ := m
      cases t with
      | sync => exact readMessage_of 9 rfl rfl (congrArg (Option.map _) hbody)
      | synced => exact readMessage_of 10 rfl rfl (congrArg (Option.map _) hbody)

end

/-! ### Texts -/

section

variable {F : Type} [FloatText F] [Bitcoin] [ErrorText]

variable (F) in
/-- `serde_json::to_string` of a message. -/
def messageText (m : WireMessage) : Bytes := compact (writeMessage (F := F) m)

variable (F) in
/-- `serde_json::from_str`. -/
def parseMessage (s : Bytes) : Option WireMessage := (parseJson (F := F) s).bind readMessage

/-- **A message's text is read as the message.** -/
theorem parseMessage_messageText {m : WireMessage} (h : Fits m) :
    parseMessage F (messageText F m) = some (heard m) := by
  have hjson : parseJson (messageText F m) = some (writeMessage (F := F) m) :=
    parseJson_compact (integral_present (whole_fieldsOf h))
  unfold parseMessage
  rw [hjson]
  exact readMessage_fieldsOf h

/-- Two messages of one text are heard as one. -/
theorem messageText_injective {m m' : WireMessage} (h : Fits m) (h' : Fits m')
    (heq : messageText F m = messageText F m') : heard m = heard m' := by
  have hread := parseMessage_messageText (F := F) h
  rw [heq, parseMessage_messageText h'] at hread
  exact (Option.some.inj hread).symm

end

end Wire

end Hitch

end Sidestr
