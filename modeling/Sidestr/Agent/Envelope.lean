/-
# A channel message on a relay

A host signs each channel message as an event of kind 23600 and checks what a
relay brings (`envelope.rs` of the agent, `hitch.rs` and `event.rs` of the nostr
codec): kind, recipient and chain decide whether the event is for this reader;
then the signature, the envelope, the message and the channel it names. A message
sent is delivered as itself, from its signer, to the peer it is for and to nobody
else; and an event's id tells sender, message, recipient and chain.

Key definitions: `signMessage`, `messageEvent`, `readMessage`, `Signs`.
Key theorems: `signMessage_eq`, `readMessage_ok`, `message_delivered`,
`one_message`.
-/
import Sidestr.Hitch.WireAccept
import Sidestr.Core.Sample
import Sidestr.Nostr.EventText

namespace Sidestr

open Reserve

namespace Envelope

open Round Nostr Hitch.Wire

/-- The recipient tag. -/
def tagP : Bytes := ascii ['p']

/-- The channel tag. -/
def tagCh : Bytes := ascii ['c', 'h']

def kindHitchMessage : ℕ := 23600

inductive EnvelopeError
  | event (error : EventError)
  | signature
  | json
  | channel
  | author
  deriving DecidableEq

def ofEvent {α : Type} : Res EventError α → Res EnvelopeError α
  | .ok a => .ok a
  | .err e => .err (.event e)
  | .panic => .panic

theorem ofEvent_eq_ok {α : Type} {x : Res EventError α} {a : α} : ofEvent x = .ok a ↔ x = .ok a := by
  cases x <;> simp [ofEvent]

/-- `hex_of`: lower-case hex of so many bytes. -/
def hexField (what : String) (s : Bytes) (bytes : ℕ) : Res EventError Bytes := do
  Res.refuseIf ((trim s).length != bytes * 2)
    (.hex what (toString (trim s).length ++ " hex characters, not " ++ toString (bytes * 2)))
  Res.refuseIf (!(trim s).all isHexDigit) (.hex what "not hex")
  .ok (toLower (trim s))

/-- An error in a tag's value names the tag. -/
def asTag (tag : Bytes) : Res EventError Bytes → Res EventError Bytes
  | .err (.hex what reason) => .err (.tag tag (what ++ ": " ++ reason))
  | r => r

/-- The hex of a required tag. -/
def hexTag (tag : Bytes) (what : String) (tags : List (List Bytes)) (bytes : ℕ) :
    Res EventError Bytes := do
  let s ← requiredTag tag tags
  asTag tag (hexField what s bytes)

theorem hexField_hexEncode {what : String} {b : Bytes} {n : ℕ} (hb : b.length = n) :
    hexField what (hexEncode b) n = .ok (hexEncode b) := by
  have hhex := all_hex_of_lower (hexEncode_lower b)
  unfold hexField
  rw [trim_hex hhex, length_hexEncode, hb, Nat.mul_comm, bne_self_eq_false, hhex,
    toLower_of_lower (hexEncode_lower b)]
  rfl

theorem hexTag_hexEncode {tag : Bytes} {what : String} {tags : List (List Bytes)} {b : Bytes} {n : ℕ}
    (h : firstTag tag tags = some (hexEncode b)) (hb : b.length = n) :
    hexTag tag what tags n = .ok (hexEncode b) := by
  unfold hexTag requiredTag
  rw [h, Res.okOr_some, Res.ok_bind, hexField_hexEncode hb]
  rfl

/-- The `chain` tag, checked against the chain expected. -/
def expectChain (tags : List (List Bytes)) (expect : Bytes) : Res EventError Bytes := do
  let c ← requiredTag tagChain tags
  Res.refuseIf (c != expect) (.chain "event is for another chain" c)
  .ok c

section

variable (F : Type) [FloatText F]

/-- The content is a JSON object. -/
def object (content : Bytes) : Res EnvelopeError Unit :=
  match parseJson (F := F) content with
  | none => .err .json
  | some (.obj _) => .ok ()
  | some _ => .err (.event (.content "a hitch message is a JSON object"))

/-- The unsigned event of a message (`hitch::message_event`). -/
def messageTemplate (chainId peerHex channelHex content : Bytes) (createdAt : ℕ) :
    Res EnvelopeError UnsignedEvent := do
  let peer ← ofEvent (hexField "recipient" peerHex 32)
  let channel ← ofEvent (hexField "channel id" channelHex 8)
  object F content
  .ok ⟨[], createdAt, kindHitchMessage,
    [[tagChain, chainId], [tagP, peer], [tagCh, channel]], content⟩

/-- An envelope read back. -/
structure MessageEvent where
  chainId : Bytes
  peer : Bytes
  channel : Bytes
  content : Bytes

/-- `hitch::parse_message`. -/
def parseEnvelope (ev : Event) (expect : Bytes) : Res EnvelopeError MessageEvent := do
  ofEvent (expectKind ev.kind kindHitchMessage "hitch message")
  let chainId ← ofEvent (expectChain ev.tags expect)
  let peer ← ofEvent (hexTag tagP "recipient" ev.tags 32)
  let channel ← ofEvent (hexTag tagCh "channel id" ev.tags 8)
  object F ev.content
  .ok ⟨chainId, peer, channel, ev.content⟩

variable [Bitcoin] [ErrorText]

attribute [local instance] jsonEventCodec

/-- The event under the key's author, id and signature. -/
def signed (key : SecretKey) (ev : UnsignedEvent) : Event :=
  let ev := { ev with pubkey := hexEncode (Bitcoin.xOnly key) }
  let id := EventCodec.idBytes ev
  ⟨ev, hexEncode (displayBytes id), hexEncode (Bitcoin.signSchnorr key id)⟩

/-- `event::sign` with a key in memory: the event is checked before it leaves. -/
def sign (key : SecretKey) (ev : UnsignedEvent) : Res EnvelopeError Event := do
  Res.refuseIf (!(signed key ev).verify) .signature
  .ok (signed key ev)

/-- The channel a message names. -/
def channel : WireMessage → Hitch.ChannelId
  | .open m => m.id
  | .accept m => m.id
  | .peer (.commit m) => m.id
  | .peer (.ready id) => id
  | .peer (.update m) => m.id
  | .peer (.ack m) => m.id
  | .peer (.revoke m) => m.id
  | .peer (.reject m) => m.id
  | .peer (.close m) => m.id
  | .peer (.sync m) => m.id

/-- The channel id as text. -/
def channelHex (id : Hitch.ChannelId) : Bytes := hexEncode (leBytes 8 id.toNat).reverse

/-- The event that carries a message to a peer. -/
def messageEvent (key : SecretKey) (chainId peer : Bytes) (message : WireMessage) (createdAt : ℕ) :
    Res EnvelopeError Event := do
  let ev ← messageTemplate F chainId (hexEncode peer) (channelHex (channel message))
    (messageText F message) createdAt
  sign key ev

/-- A message read from an event. -/
structure Inbound where
  sender : Bytes
  message : WireMessage
  eventId : Bytes
  createdAt : ℕ
  deriving DecidableEq

/-- An x-only key from its 64 characters. -/
def parseAuthor (pubkey : Bytes) : Option Bytes := do
  let key ← hexDecode pubkey
  if key.length = 32 ∧ Bitcoin.isXOnly key = true then some key else none

/-- The event is of another kind, for another reader or on another chain. -/
def notForMe (ev : Event) (me chainId : Bytes) : Bool :=
  ev.kind != kindHitchMessage || !isForChain ev.tags chainId ||
    !(firstTag tagP ev.tags).any fun p => toLower p == toLower (hexEncode me)

/-- `envelope::read_message`. -/
def readMessage (ev : Event) (me chainId : Bytes) : Res EnvelopeError (Option Inbound) :=
  if notForMe ev me chainId then .ok none
  else do
    Res.refuseIf (!ev.verify) .signature
    let envelope ← parseEnvelope F ev chainId
    let message ← Res.okOr .json (parseMessage F envelope.content)
    Res.refuseIf (channelHex (channel message) != envelope.channel) .channel
    let sender ← Res.okOr .author (parseAuthor ev.pubkey)
    .ok (some ⟨sender, message, ev.id, ev.createdAt⟩)

end

/-! ### Sending -/

section

variable {F : Type} [FloatText F] [Bitcoin] [ErrorText]

attribute [local instance] jsonEventCodec

/-- The key's signatures are of their length and verify. -/
structure Signs (key : SecretKey) : Prop where
  length : (Bitcoin.xOnly key).length = 32
  valid : Bitcoin.isXOnly (Bitcoin.xOnly key) = true
  sigLength : ∀ msg, (Bitcoin.signSchnorr key msg).length = 64
  verifies : ∀ msg, Bitcoin.schnorrVerify msg (Bitcoin.signSchnorr key msg) (Bitcoin.xOnly key) = true

omit [ErrorText] in
theorem pubkeyFromHex_hexEncode {b : Bytes} (hlen : b.length = 32) (hvalid : Bitcoin.isXOnly b = true) :
    pubkeyFromHex (hexEncode b) = some b := by
  have hhex := all_hex_of_lower (hexEncode_lower b)
  unfold pubkeyFromHex
  rw [hexOf_hex (by rw [length_hexEncode, hlen]) hhex, toLower_of_lower (hexEncode_lower b)]
  simp only [Option.bind_eq_bind, Option.bind_some, hexDecode_hexEncode, hvalid, if_true]

omit [ErrorText] in
theorem signed_verify {key : SecretKey} (h : Signs key) (ev : UnsignedEvent) :
    (signed key ev).verify = true := by
  unfold Event.verify signed
  dsimp only
  rw [pubkeyFromHex_hexEncode h.length h.valid, trim_hex (all_hex_of_lower (hexEncode_lower _)),
    hexDecode_hexEncode, toLower_of_lower (hexEncode_lower _), beq_self_eq_true]
  dsimp only
  rw [h.sigLength, h.verifies]
  rfl

omit [ErrorText] in
theorem sign_ok {key : SecretKey} (h : Signs key) (ev : UnsignedEvent) :
    sign key ev = .ok (signed key ev) := by
  unfold sign
  rw [signed_verify h]
  rfl

/-- The event before it is signed. -/
def template (F : Type) [FloatText F] (chainId peer : Bytes) (m : WireMessage) (createdAt : ℕ) :
    UnsignedEvent :=
  ⟨[], createdAt, kindHitchMessage,
    [[tagChain, chainId], [tagP, hexEncode peer], [tagCh, channelHex (channel m)]], messageText F m⟩

/-- The text of a message in range is an object. -/
theorem object_messageText {m : WireMessage} (hm : Fits m) : object F (messageText F m) = .ok () := by
  have hparse : parseJson (messageText F m) = some (.obj (present (fieldsOf (F := F) m))) :=
    parseJson_compact (integral_present (whole_fieldsOf hm))
  unfold object
  rw [hparse]

omit [Bitcoin] [ErrorText] in
theorem length_idBytes (id : Hitch.ChannelId) : (leBytes 8 id.toNat).reverse.length = 8 := by
  rw [List.length_reverse, length_leBytes]

/-- A message in range is signed and sent. -/
theorem messageEvent_ok {key : SecretKey} (hkey : Signs key) {peer : Bytes} (hpeer : peer.length = 32)
    {m : WireMessage} (hm : Fits m) (chainId : Bytes) (createdAt : ℕ) :
    messageEvent F key chainId peer m createdAt =
      .ok (signed key (template F chainId peer m createdAt)) := by
  unfold messageEvent messageTemplate
  rw [hexField_hexEncode hpeer]
  have hch : hexField "channel id" (channelHex (channel m)) 8 = .ok (channelHex (channel m)) :=
    hexField_hexEncode (length_idBytes _)
  rw [hch, object_messageText hm]
  exact sign_ok hkey _

/-! ### Receiving -/

omit [Bitcoin] [ErrorText] in
theorem toLower_hexEncode (b : Bytes) : toLower (hexEncode b) = hexEncode b :=
  toLower_of_lower (hexEncode_lower b)

omit [Bitcoin] [ErrorText] in
theorem hexEncode_inj {a b : Bytes} (h : hexEncode a = hexEncode b) : a = b := by
  have := congrArg hexDecode h
  rwa [hexDecode_hexEncode, hexDecode_hexEncode, Option.some.injEq] at this

omit [Bitcoin] in
theorem channel_heard (m : WireMessage) : channel (heard m) = channel m := by
  rcases m with m | m | m
  · rfl
  · rfl
  · cases m <;> rfl

/-- The envelope of an event that was sent. -/
theorem parseEnvelope_signed {key : SecretKey} {peer : Bytes} (hpeer : peer.length = 32)
    {m : WireMessage} (hm : Fits m) (chainId : Bytes) (createdAt : ℕ) :
    parseEnvelope F (signed key (template F chainId peer m createdAt)) chainId =
      .ok ⟨chainId, hexEncode peer, channelHex (channel m), messageText F m⟩ := by
  have hkind : expectKind (signed key (template F chainId peer m createdAt)).kind kindHitchMessage
      "hitch message" = .ok () := if_pos rfl
  have hchain : expectChain (signed key (template F chainId peer m createdAt)).tags chainId =
      .ok chainId := by
    change (Res.refuseIf (chainId != chainId) _ >>= fun _ => Res.ok chainId) = _
    rw [bne_self_eq_false]
    rfl
  have hp : hexTag tagP "recipient" (signed key (template F chainId peer m createdAt)).tags 32 =
      .ok (hexEncode peer) := hexTag_hexEncode rfl hpeer
  have hch : hexTag tagCh "channel id" (signed key (template F chainId peer m createdAt)).tags 8 =
      .ok (channelHex (channel m)) := hexTag_hexEncode rfl (length_idBytes _)
  unfold parseEnvelope
  rw [hkind, hchain, hp, hch]
  have hobject : object F (signed key (template F chainId peer m createdAt)).content = .ok () :=
    object_messageText hm
  rw [hobject]
  rfl

theorem notForMe_signed {key : SecretKey} {peer me : Bytes} {m : WireMessage}
    (chainId chainId' : Bytes) (createdAt : ℕ) :
    notForMe (signed key (template F chainId peer m createdAt)) me chainId' = true ↔
      chainId ≠ chainId' ∨ peer ≠ me := by
  have hfirst : firstTag tagP (signed key (template F chainId peer m createdAt)).tags =
      some (hexEncode peer) := rfl
  have hchain : isForChain (signed key (template F chainId peer m createdAt)).tags chainId' =
      (chainId == chainId') := by
    change ((tagChain == tagChain && chainId == chainId') ||
      ((tagP == tagChain && hexEncode peer == chainId') ||
        ((tagCh == tagChain && channelHex (channel m) == chainId') || false))) = _
    rw [beq_self_eq_true, Bool.true_and, show (tagP == tagChain) = false by decide,
      show (tagCh == tagChain) = false by decide, Bool.false_and, Bool.false_and, Bool.or_false,
      Bool.or_false, Bool.or_false]
  have hkind : ((signed key (template F chainId peer m createdAt)).kind != kindHitchMessage) =
      false := bne_self_eq_false _
  unfold notForMe
  rw [hkind, hchain, hfirst, Option.any_some, toLower_hexEncode, toLower_hexEncode]
  simp only [Bool.false_or, Bool.or_eq_true, Bool.not_eq_true', beq_eq_false_iff_ne, ne_eq]
  constructor
  · rintro (h | h)
    · exact .inl h
    · exact .inr fun hc => h (congrArg hexEncode hc)
  · rintro (h | h)
    · exact .inl h
    · exact .inr fun hc => h (hexEncode_inj hc)

/-- The peer reads the message that was signed for it. -/
theorem readMessage_signed {key : SecretKey} (hkey : Signs key) {peer : Bytes}
    (hpeer : peer.length = 32) {m : WireMessage} (hm : Fits m) (chainId : Bytes) (createdAt : ℕ) :
    readMessage F (signed key (template F chainId peer m createdAt)) peer chainId =
      .ok (some ⟨Bitcoin.xOnly key, heard m, (signed key (template F chainId peer m createdAt)).id,
        createdAt⟩) := by
  have hme : notForMe (signed key (template F chainId peer m createdAt)) peer chainId = false := by
    rw [← Bool.not_eq_true, notForMe_signed]
    rintro (h | h)
    · exact h rfl
    · exact h rfl
  have hauthor : parseAuthor (signed key (template F chainId peer m createdAt)).pubkey =
      some (Bitcoin.xOnly key) := by
    change (hexDecode (hexEncode (Bitcoin.xOnly key))).bind
      (fun k => if k.length = 32 ∧ Bitcoin.isXOnly k = true then some k else none) = _
    rw [hexDecode_hexEncode, Option.bind_some, if_pos ⟨hkey.length, hkey.valid⟩]
  unfold readMessage
  rw [hme, if_neg Bool.false_ne_true, signed_verify hkey, parseEnvelope_signed hpeer hm]
  simp only [Bool.not_true, Res.refuseIf_false, Res.ok_bind, parseMessage_messageText hm,
    Res.okOr_some, channel_heard, bne_self_eq_false, hauthor]
  rfl

/-- **A message sent reaches its peer as itself, and nobody else.** -/
theorem message_delivered {key : SecretKey} (hkey : Signs key) {peer : Bytes}
    (hpeer : peer.length = 32) {m : WireMessage} (hm : Fits m) {createdAt : ℕ}
    (hcreated : createdAt < 2 ^ 64) (chainId : Bytes) :
    ∃ ev, messageEvent F key chainId peer m createdAt = .ok ev ∧
      (∀ sub, RelayMessage.fromJson F (delivery F sub ev) = some (.event sub ev)) ∧
      readMessage F ev peer chainId =
        .ok (some ⟨Bitcoin.xOnly key, heard m, ev.id, createdAt⟩) ∧
      ∀ me chainId', me ≠ peer ∨ chainId' ≠ chainId → readMessage F ev me chainId' = .ok none := by
  refine ⟨signed key (template F chainId peer m createdAt),
    messageEvent_ok hkey hpeer hm chainId createdAt, fun sub => ?_,
    readMessage_signed hkey hpeer hm chainId createdAt, ?_⟩
  · exact fromJson_delivery ⟨hcreated, (by decide : kindHitchMessage < 2 ^ 32)⟩ sub
  · intro me chainId' h
    have hnot : notForMe (signed key (template F chainId peer m createdAt)) me chainId' = true := by
      rw [notForMe_signed]
      rcases h with h | h
      · exact .inr h.symm
      · exact .inl h.symm
    unfold readMessage
    rw [hnot, if_pos rfl]

/-! ### What a reader is told -/

/-- What is checked before a message is handed on. -/
structure Accepts (F : Type) [FloatText F] (ev : Event) (me chainId : Bytes) (i : Inbound) :
    Prop where
  genuine : ev.verify = true
  kind : ev.kind = kindHitchMessage
  chain : firstTag tagChain ev.tags = some chainId
  recipient : ∃ p, firstTag tagP ev.tags = some p ∧ toLower p = hexEncode me
  message : parseMessage F ev.content = some i.message
  sender : parseAuthor ev.pubkey = some i.sender
  eventId : i.eventId = ev.id
  createdAt : i.createdAt = ev.createdAt

omit [ErrorText] in
theorem readMessage_ok {ev : Event} {me chainId : Bytes} {i : Inbound}
    (h : readMessage F ev me chainId = .ok (some i)) : Accepts F ev me chainId i := by
  unfold readMessage at h
  split at h
  · cases h
  · rename_i hme
    obtain ⟨_, hverify, h⟩ := Res.bind_eq_ok.mp h
    obtain ⟨envelope, henvelope, h⟩ := Res.bind_eq_ok.mp h
    obtain ⟨message, hmessage, h⟩ := Res.bind_eq_ok.mp h
    obtain ⟨_, -, h⟩ := Res.bind_eq_ok.mp h
    obtain ⟨sender, hsender, h⟩ := Res.bind_eq_ok.mp h
    unfold parseEnvelope at henvelope
    obtain ⟨_, -, henvelope⟩ := Res.bind_eq_ok.mp henvelope
    obtain ⟨chain, hchain, henvelope⟩ := Res.bind_eq_ok.mp henvelope
    obtain ⟨peer, -, henvelope⟩ := Res.bind_eq_ok.mp henvelope
    obtain ⟨ch, -, henvelope⟩ := Res.bind_eq_ok.mp henvelope
    obtain ⟨_, -, henvelope⟩ := Res.bind_eq_ok.mp henvelope
    rw [Res.ok.injEq] at h henvelope
    rw [Res.refuseIf_eq_ok, Bool.not_eq_false'] at hverify
    rw [Res.okOr_eq_ok] at hmessage hsender
    rw [← henvelope] at hmessage
    obtain ⟨c, hfirst, hexpect⟩ := Res.bind_eq_ok.mp (ofEvent_eq_ok.mp hchain)
    obtain ⟨_, hsame, -⟩ := Res.bind_eq_ok.mp hexpect
    rw [Res.refuseIf_eq_ok, bne_eq_false_iff_eq] at hsame
    unfold notForMe at hme
    rw [Bool.or_eq_true, Bool.or_eq_true, not_or, not_or] at hme
    obtain ⟨⟨hkind, -⟩, hp⟩ := hme
    rw [Bool.not_eq_true', Bool.not_eq_false, Option.any_eq_true] at hp
    obtain ⟨p, hp, heq⟩ := hp
    rw [beq_iff_eq, toLower_hexEncode] at heq
    rw [← Option.some.inj h]
    exact {
      genuine := hverify
      kind := by
        rw [Bool.not_eq_true, bne_eq_false_iff_eq] at hkind
        exact hkind
      chain := by
        rw [Res.okOr_eq_ok.mp hfirst, hsame]
      recipient := ⟨p, hp, heq⟩
      message := hmessage
      sender := hsender
      eventId := rfl
      createdAt := rfl }

omit [ErrorText] in
/-- **One id, one message**: events of one id that are handed on, whoever read
them, tell the same sender, message, recipient and chain, or their texts collide. -/
theorem one_message {a b : Event} {me me' chainId chainId' : Bytes} {i j : Inbound}
    (ha : readMessage F a me chainId = .ok (some i))
    (hb : readMessage F b me' chainId' = .ok (some j)) (hra : InRange a.toUnsignedEvent)
    (hrb : InRange b.toUnsignedEvent) (hid : toLower i.eventId = toLower j.eventId) :
    (i.sender = j.sender ∧ i.message = j.message ∧ i.createdAt = j.createdAt ∧ me = me' ∧
        chainId = chainId') ∨
      SameHash (idText a.toUnsignedEvent) (idText b.toUnsignedEvent) := by
  have hi := readMessage_ok ha
  have hj := readMessage_ok hb
  rw [hi.eventId, hj.eventId] at hid
  rcases unsigned_of_id hi.genuine hj.genuine hra hrb hid with hsame | hcollision
  · left
    have hpubkey : a.pubkey = b.pubkey := congrArg UnsignedEvent.pubkey hsame
    have hcontent : a.content = b.content := congrArg UnsignedEvent.content hsame
    have hcreated : a.createdAt = b.createdAt := congrArg UnsignedEvent.createdAt hsame
    have htags : a.tags = b.tags := congrArg UnsignedEvent.tags hsame
    refine ⟨?_, ?_, ?_, ?_, ?_⟩
    · exact Option.some.inj (hi.sender.symm.trans (hpubkey ▸ hj.sender))
    · exact Option.some.inj (hi.message.symm.trans (hcontent ▸ hj.message))
    · rw [hi.createdAt, hj.createdAt, hcreated]
    · obtain ⟨p, hp, heq⟩ := hi.recipient
      obtain ⟨q, hq, heq'⟩ := hj.recipient
      rw [htags, hq, Option.some.injEq] at hp
      rw [hp, heq] at heq'
      exact hexEncode_inj heq'
    · exact Option.some.inj (hi.chain.symm.trans (htags ▸ hj.chain))
  · exact .inr hcollision

end

/-! ### A sample -/

section

attribute [local instance] sampleBitcoin jsonEventCodec

/-- Errors without a text. -/
@[reducible] def mute : ErrorText where
  display _ := []

attribute [local instance] mute

/-- A payment of 700 sats with a note. -/
def samplePay : WireMessage :=
  .peer (.update ⟨7, 3, .pay 700 (some ['t', 'e', 'a']), List.replicate 65 7, 5,
    List.replicate 64 9⟩)

theorem samplePay_fits : Fits samplePay where
  n := by decide
  update := by
    change 700 < 2 ^ 64
    decide
  sig := rfl
  nextRev := rfl
  nextRevPop := rfl

theorem sampleKey_signs : Signs 1 where
  length := rfl
  valid := rfl
  sigLength _ := rfl
  verifies msg := beq_self_eq_true (sampleSig (sampleKey 1) msg)

theorem message_delivered_sample :
    ∃ ev, messageEvent Empty 1 [0x63] (sampleKey 2) samplePay 1790100000 = .ok ev ∧
      (∀ sub, RelayMessage.fromJson Empty (delivery Empty sub ev) = some (.event sub ev)) ∧
      readMessage Empty ev (sampleKey 2) [0x63] =
        .ok (some ⟨Bitcoin.xOnly 1, heard samplePay, ev.id, 1790100000⟩) ∧
      ∀ me chainId', me ≠ sampleKey 2 ∨ chainId' ≠ [0x63] →
        readMessage Empty ev me chainId' = .ok none :=
  message_delivered sampleKey_signs rfl samplePay_fits (by decide) [0x63]

/-- The payment read twice. -/
theorem one_message_sample :
    (Bitcoin.xOnly 1 = Bitcoin.xOnly 1 ∧ heard samplePay = heard samplePay ∧
        1790100000 = 1790100000 ∧ sampleKey 2 = sampleKey 2 ∧ ([0x63] : Bytes) = [0x63]) ∨
      SameHash (idText (signed 1 (template Empty [0x63] (sampleKey 2) samplePay 1790100000)).toUnsignedEvent)
        (idText (signed 1 (template Empty [0x63] (sampleKey 2) samplePay 1790100000)).toUnsignedEvent) :=
  one_message (readMessage_signed sampleKey_signs rfl samplePay_fits [0x63] 1790100000)
    (readMessage_signed sampleKey_signs rfl samplePay_fits [0x63] 1790100000)
    ⟨(by decide : 1790100000 < 2 ^ 64), (by decide : kindHitchMessage < 2 ^ 32)⟩
    ⟨(by decide : 1790100000 < 2 ^ 64), (by decide : kindHitchMessage < 2 ^ 32)⟩ rfl

end

end Envelope

end Sidestr
