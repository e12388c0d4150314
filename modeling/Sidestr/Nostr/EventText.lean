/-
# Events as text

The JSON of an event (`event.rs`, `relay.rs`): the array its id is the hash of,
the object it travels as, and what a relay sends. Both texts keep every field, so
an id that two events share either tells their fields alike or shows two texts of
one hash; and the event a relay passes on is the one that was published.

Key definitions: `idText`, `jsonEventCodec`, `eventCodec`, `RelayMessage.fromJson`,
`SameHash`.
Key theorems: `idText_injective`, `unsigned_of_id`, `event_keeps`,
`fromJson_delivery`.
-/
import Sidestr.Core.Serde
import Sidestr.Nostr.Tags

namespace Sidestr

open Reserve

namespace Nostr

open Round

/-- The numbers of an event are of their widths. -/
def InRange (ev : UnsignedEvent) : Prop := ev.createdAt < 2 ^ 64 ∧ ev.kind < 2 ^ 32

section

variable {F : Type}

/-- Tags as arrays of strings. -/
def tagsCodec : Codec F (List (List Bytes)) := listCodec (listCodec bytesCodec)

theorem tags_keeps (tags : List (List Bytes)) : (tagsCodec (F := F)).Keeps tags :=
  list_keeps fun _ _ => list_keeps fun s _ => bytes_keeps s

/-! ### The id -/

/-- The array the id is the hash of. -/
def idArray (ev : UnsignedEvent) : Json F :=
  .arr [.posInt 0, .str ev.pubkey, .posInt (UInt64.ofNat ev.createdAt),
    .posInt (UInt64.ofNat ev.kind), tagsCodec.write ev.tags, .str ev.content]

end

def idText (ev : UnsignedEvent) : Bytes := compact (idArray (F := Empty) ev)

theorem idArray_integral (ev : UnsignedEvent) : Integral (idArray (F := Empty) ev) := by
  apply Integral.arr
  simp only [List.forall_mem_cons]
  exact ⟨.posInt _, .str _, .posInt _, .posInt _, (tags_keeps ev.tags).1, .str _,
    List.forall_mem_nil _⟩

theorem ofNat_injective {w n m : ℕ} (hw : w ≤ 64) (hn : n < 2 ^ w) (hm : m < 2 ^ w)
    (h : UInt64.ofNat n = UInt64.ofNat m) : n = m := by
  have hread := (uint_keeps (F := Empty) hw hn).2
  have hsame : (uintCodec (F := Empty) w).write n = (uintCodec w).write m :=
    congrArg Json.posInt h
  rw [hsame, (uint_keeps hw hm).2] at hread
  exact (Option.some.inj hread).symm

/-- **The text under the id tells every field.** -/
theorem idText_injective {a b : UnsignedEvent} (ha : InRange a) (hb : InRange b)
    (h : idText a = idText b) : a = b := by
  have harr := compact_injective (idArray_integral a) (idArray_integral b) h
  simp only [idArray, Json.arr.injEq, List.cons.injEq, Json.str.injEq, Json.posInt.injEq,
    true_and, and_true] at harr
  obtain ⟨hpubkey, hcreated, hkind, htags, hcontent⟩ := harr
  have htagsame : a.tags = b.tags := by
    have hread := (tags_keeps (F := Empty) a.tags).2
    rw [htags, (tags_keeps b.tags).2] at hread
    exact (Option.some.inj hread).symm
  obtain ⟨pubkey, createdAt, kind, tags, content⟩ := a
  obtain ⟨pubkey', createdAt', kind', tags', content'⟩ := b
  rw [UnsignedEvent.mk.injEq]
  exact ⟨hpubkey, ofNat_injective (le_refl 64) ha.1 hb.1 hcreated,
    ofNat_injective (by decide : 32 ≤ 64) ha.2 hb.2 hkind, htagsame, hcontent⟩

section

variable [Bitcoin]

/-- The id is SHA-256 of that text. -/
@[reducible] def jsonEventCodec : EventCodec where
  idBytes ev := Bitcoin.sha256 (idText ev)

attribute [local instance] jsonEventCodec

/-- Two texts of one hash. -/
def SameHash (s t : Bytes) : Prop := s ≠ t ∧ Bitcoin.sha256 s = Bitcoin.sha256 t

theorem verify_id {ev : Event} (h : ev.verify = true) :
    toLower ev.id = hashText (Bitcoin.sha256 (idText ev.toUnsignedEvent)) :=
  beq_iff_eq.mp (Bool.and_eq_true_iff.mp h).1

/-- Genuine events of one id have the same fields, or their texts collide. -/
theorem unsigned_of_id {a b : Event} (ha : a.verify = true) (hb : b.verify = true)
    (hra : InRange a.toUnsignedEvent) (hrb : InRange b.toUnsignedEvent)
    (hid : toLower a.id = toLower b.id) : a.toUnsignedEvent = b.toUnsignedEvent ∨
      SameHash (idText a.toUnsignedEvent) (idText b.toUnsignedEvent) := by
  have hhash : Bitcoin.sha256 (idText a.toUnsignedEvent) =
      Bitcoin.sha256 (idText b.toUnsignedEvent) := by
    have htext := congrArg parseHash ((verify_id ha).symm.trans (hid.trans (verify_id hb)))
    rwa [parseHash_hashText, parseHash_hashText] at htext
  by_cases h : idText a.toUnsignedEvent = idText b.toUnsignedEvent
  · exact .inl (idText_injective hra hrb h)
  · exact .inr ⟨h, hhash⟩

end

/-! ### The object -/

def keyEventId : Bytes := ascii ['i', 'd']
def keyPubkey : Bytes := ascii ['p', 'u', 'b', 'k', 'e', 'y']
def keyCreatedAt : Bytes := ascii ['c', 'r', 'e', 'a', 't', 'e', 'd', '_', 'a', 't']
def keyEventKind : Bytes := ascii ['k', 'i', 'n', 'd']
def keyTags : Bytes := ascii ['t', 'a', 'g', 's']
def keyContent : Bytes := ascii ['c', 'o', 'n', 't', 'e', 'n', 't']
def keyEventSig : Bytes := ascii ['s', 'i', 'g']

section

variable {F : Type}

def eventFields (ev : Event) : List (Bytes × Option (Json F)) :=
  [(keyEventId, some (bytesCodec.write ev.id)), (keyPubkey, some (bytesCodec.write ev.pubkey)),
    (keyCreatedAt, some ((uintCodec 64).write ev.createdAt)),
    (keyEventKind, some ((uintCodec 32).write ev.kind)), (keyTags, some (tagsCodec.write ev.tags)),
    (keyContent, some (bytesCodec.write ev.content)), (keyEventSig, some (bytesCodec.write ev.sig))]

def eventNames : List Bytes :=
  [keyEventId, keyPubkey, keyCreatedAt, keyEventKind, keyTags, keyContent, keyEventSig]

def eventBody (fields : List (Bytes × Json F)) : Option Event := do
  let id ← required bytesCodec keyEventId fields
  let pubkey ← required bytesCodec keyPubkey fields
  let createdAt ← required (uintCodec 64) keyCreatedAt fields
  let kind ← required (uintCodec 32) keyEventKind fields
  let tags ← required tagsCodec keyTags fields
  let content ← required bytesCodec keyContent fields
  let sig ← required bytesCodec keyEventSig fields
  some ⟨⟨pubkey, createdAt, kind, tags, content⟩, id, sig⟩

def eventCodec : Codec F Event := structCodec eventNames eventFields eventBody

theorem eventFields_nodup (ev : Event) : ((eventFields (F := F) ev).map Prod.fst).Nodup :=
  (by decide : eventNames.Nodup)

theorem event_keeps {ev : Event} (h : InRange ev.toUnsignedEvent) :
    (eventCodec (F := F)).Keeps ev := by
  have hnodup := eventFields_nodup (F := F) ev
  have hcreated := uint_keeps (F := F) (le_refl 64) h.1
  have hkind := uint_keeps (F := F) (by decide : 32 ≤ 64) h.2
  apply struct_keeps
  · simp only [eventFields, List.forall_mem_cons]
    exact ⟨whole_some (.str _), whole_some (.str _), whole_some hcreated.1, whole_some hkind.1,
      whole_some (tags_keeps ev.tags).1, whole_some (.str _), whole_some (.str _),
      List.forall_mem_nil _⟩
  · unfold eventBody
    rw [required_present hnodup (by simp [eventFields]) (bytes_keeps ev.id),
      required_present hnodup (by simp [eventFields]) (bytes_keeps ev.pubkey),
      required_present hnodup (by simp [eventFields]) hcreated,
      required_present hnodup (by simp [eventFields]) hkind,
      required_present hnodup (by simp [eventFields]) (tags_keeps ev.tags),
      required_present hnodup (by simp [eventFields]) (bytes_keeps ev.content),
      required_present hnodup (by simp [eventFields]) (bytes_keeps ev.sig)]
    rfl

/-! ### What a relay sends -/

def verbEvent : Bytes := ascii ['E', 'V', 'E', 'N', 'T']
def verbEose : Bytes := ascii ['E', 'O', 'S', 'E']
def verbOk : Bytes := ascii ['O', 'K']
def verbClosed : Bytes := ascii ['C', 'L', 'O', 'S', 'E', 'D']
def verbNotice : Bytes := ascii ['N', 'O', 'T', 'I', 'C', 'E']

inductive RelayMessage
  | event (subscriptionId : Bytes) (event : Event)
  | eose (subscriptionId : Bytes)
  | ok (eventId : Bytes) (accepted : Bool) (message : Bytes)
  | closed (subscriptionId message : Bytes)
  | notice (message : Bytes)
  deriving DecidableEq

/-- A parsed object keeps the last of a key's values. -/
def lastFields : List (Bytes × Json F) → List (Bytes × Json F)
  | [] => []
  | f :: fields =>
    if fields.any fun g => g.1 == f.1 then lastFields fields else f :: lastFields fields

def lastWins : Json F → Json F
  | .obj fields => .obj (lastFields fields)
  | v => v

def asStr : Json F → Option Bytes
  | .str s => some s
  | _ => none

def asBool : Json F → Option Bool
  | .bool b => some b
  | _ => none

/-- The message of an array. -/
def RelayMessage.ofItems (v : List (Json F)) : Option RelayMessage :=
  let s i := (v[i]?).bind asStr
  let verb := (v.head?.bind asStr).getD []
  if verb = verbEvent then do
    let subscriptionId ← s 1
    let event ← v[2]?
    let event ← eventCodec.read (lastWins event)
    some (.event subscriptionId event)
  else if verb = verbEose then some (.eose ((s 1).getD []))
  else if verb = verbOk then
    some (.ok ((s 1).getD []) (((v[2]?).bind asBool).getD false) ((s 3).getD []))
  else if verb = verbClosed then some (.closed ((s 1).getD []) ((s 2).getD []))
  else if verb = verbNotice then some (.notice ((s 1).getD []))
  else none

variable [FloatText F]

variable (F) in
/-- `RelayMessage::from_json`. -/
def RelayMessage.fromJson (text : Bytes) : Option RelayMessage :=
  match parseJson (F := F) text with
  | some (.arr items) => RelayMessage.ofItems items
  | _ => none

variable (F) in
/-- A relay's delivery of an event. -/
def delivery (subscriptionId : Bytes) (ev : Event) : Bytes :=
  compact (F := F) (.arr [.str verbEvent, .str subscriptionId, eventCodec.write ev])

omit [FloatText F] in
theorem lastFields_nodup : ∀ {fields : List (Bytes × Json F)}, (fields.map Prod.fst).Nodup →
    lastFields fields = fields
  | [], _ => rfl
  | f :: fields, h => by
    rw [List.map_cons, List.nodup_cons] at h
    have hno : (fields.any fun g => g.1 == f.1) = false := by
      rw [List.any_eq_false]
      intro g hg
      rw [beq_iff_eq]
      exact fun hc => h.1 (List.mem_map.mpr ⟨g, hg, hc⟩)
    rw [lastFields, hno, if_neg Bool.false_ne_true, lastFields_nodup h.2]

/-- **An event delivered is the event published.** -/
theorem fromJson_delivery {ev : Event} (h : InRange ev.toUnsignedEvent) (subscriptionId : Bytes) :
    RelayMessage.fromJson F (delivery F subscriptionId ev) = some (.event subscriptionId ev) := by
  obtain ⟨hint, hread⟩ := event_keeps (F := F) h
  have hparse : parseJson (delivery F subscriptionId ev) =
      some (.arr [.str verbEvent, .str subscriptionId, eventCodec.write (F := F) ev]) := by
    apply parseJson_compact
    apply Integral.arr
    simp only [List.forall_mem_cons]
    exact ⟨.str _, .str _, hint, List.forall_mem_nil _⟩
  have hlast : lastWins (eventCodec.write (F := F) ev) = eventCodec.write ev :=
    congrArg Json.obj (lastFields_nodup (eventFields_nodup (F := F) ev))
  unfold RelayMessage.fromJson
  rw [hparse]
  change (eventCodec.read (lastWins (eventCodec.write (F := F) ev))).bind
    (fun event => some (RelayMessage.event subscriptionId event)) = _
  rw [hlast, hread]
  rfl

end

end Nostr

end Sidestr
