/-
# Resolving a chain

A chain is asked for by its alias or by its hash (`chain.rs`): over the newest tip
announcement of an alias, the event of an id and the JSON of a mirror, which others
answer. What is resolved comes from an event that verifies and has the hash, or for
a chain without one from a mirror's document that names the announcer. A chain's
hash that is asked for is the one that is resolved; its alias need not be the one
that is asked for (`resolved_as_asked_iff`). A parent that is a chain is followed
the same way, at most sixteen chains deep (`nested_as_asked`).

Key definitions: `parseChainEvent`, `chooseMirror`, `resolveChain`, `AsAsked`,
`resolveNestedParent`.
Key theorems: `parseChainEvent_ok`, `chooseMirror_ok`, `chainEventFor_ok`,
`resolved_as_asked_iff`, `followParents_ok`, `nested_as_asked`.
-/
import Sidestr.Core.Json
import Sidestr.Nostr.Tip
import Sidestr.Round.Sample

namespace Sidestr

namespace Nostr

open Round

def kindChainDocument : ℕ := 3500

inductive ResolveError
  | hex
  | kind (found : ℕ)
  | signature
  | content (reason : String)
  | chain (reason : String)
  /-- No mirror checks out. -/
  | noMirror (chainId : Bytes) (tip : UInt32)
  | document (reason : String)
  | parent (id : Bytes)
  deriving DecidableEq

/-- The value of an object's key. -/
def fieldOf {F : Type} (fields : List (Bytes × Json F)) (key : Bytes) : Option (Json F) :=
  (fields.find? fun f => f.1 == key).map Prod.snd

def keyId : Bytes := ascii ['i', 'd']

def keySignerField : Bytes := ascii ['s', 'i', 'g', 'n', 'e', 'r']

def keySigners : Bytes := ascii ['s', 'i', 'g', 'n', 'e', 'r', 's']

/-- What resolving takes of `serde_json`. -/
class ChainCodec (F : Type) where
  /-- `serde_json::from_str`. -/
  fromStr : Bytes → Option (Json F)
  /-- An event's JSON. -/
  eventOf : Json F → Option Event
  /-- A chain document's JSON. -/
  documentOf : Json F → Option ChainDocument

/-- A chain event read back. -/
structure ParsedChain (F : Type) where
  hash : Bytes
  «alias» : Bytes
  pubkey : Bytes
  chain : Json F
  event : Event

/-- Whether a value is this text. -/
def isText {F : Type} (s : Bytes) : Json F → Bool
  | .str t => t == s
  | _ => false

/-- The members of an array. -/
def asArray {F : Type} : Json F → Option (List (Json F))
  | .arr items => some items
  | _ => none

/-- The document with the author as its signer, where it names none. -/
def withSigner {F : Type} (fields : List (Bytes × Json F)) (author : Bytes) :
    List (Bytes × Json F) :=
  if (fieldOf fields keySignerField).isNone && ((fieldOf fields keySigners).bind asArray).isNone then
    fields ++ [(keySignerField, .str author)]
  else fields

section

variable {F : Type} [ChainCodec F]

section

variable [Bitcoin] [EventCodec]

def parseChainEvent (ev : Event) : Res ResolveError (ParsedChain F) := do
  Res.refuseIf (ev.kind != kindChainDocument) (.kind ev.kind)
  Res.refuseIf (!ev.verify) .signature
  let chain ← Res.okOr (.content "the chain event's content is not JSON")
    (ChainCodec.fromStr ev.content : Option (Json F))
  match chain with
  | .obj fields =>
    match fieldOf fields keyId with
    | some (.str «alias») => do
      Res.refuseIf ((fieldOf fields keySignerField).any fun s => !isText ev.pubkey s)
        (.chain "the document names a signer other than the event's author")
      Res.refuseIf (((fieldOf fields keySigners).bind asArray).any fun l => !l.any (isText ev.pubkey))
        (.chain "the event's author is not one of the document's signers")
      .ok ⟨ev.id, «alias», ev.pubkey, .obj (withSigner fields ev.pubkey), ev⟩
    | _ => .err (.content "the chain event carries no document with an alias")
  | _ => .err (.content "the chain event carries no document with an alias")

/-- An event that arrived as JSON. -/
def parseChainEventValue (v : Json F) : Res ResolveError (ParsedChain F) :=
  match v with
  | .obj fields =>
    match fieldOf fields (ascii ['k', 'i', 'n', 'd']) with
    | some (.posInt n) =>
      if n.toNat = kindChainDocument then
        match ChainCodec.eventOf v with
        | some ev => parseChainEvent ev
        | none => .err .signature
      else .err (.kind (if n.toNat < 2 ^ 32 then n.toNat else 0))
    | _ => .err (.kind 0)
  | _ => .err (.kind 0)

end

/-! ### Mirrors -/

/-- A mirror's chain document, as far as it is trusted. -/
structure MirrorChain where
  id : Bytes
  signer : Option Bytes
  signers : List Bytes
  deriving DecidableEq

def textOf : Json F → Option Bytes
  | .str s => some s
  | _ => none

/-- A list of texts. -/
def textsOf (v : Json F) : Option (List Bytes) := (asArray v).bind fun l => l.mapM textOf

/-- A text, or nothing. -/
def optionalText : Json F → Option (Option Bytes)
  | .null => some none
  | .str s => some (some s)
  | _ => none

/-- The signer of an object, nobody by default. -/
def signerField (fields : List (Bytes × Json F)) : Option (Option Bytes) :=
  match fieldOf fields keySignerField with
  | none => some none
  | some v => optionalText v

/-- The signers of an object, none by default. -/
def signersField (fields : List (Bytes × Json F)) : Option (List Bytes) :=
  match fieldOf fields keySigners with
  | none => some []
  | some v => textsOf v

/-- The document of a JSON value: an object by its keys, or an array in their order. -/
def mirrorOf : Json F → Option MirrorChain
  | .obj fields => do
    let id ← (fieldOf fields keyId).bind textOf
    let signer ← signerField fields
    let signers ← signersField fields
    some ⟨id, signer, signers⟩
  | .arr [.str id] => some ⟨id, none, []⟩
  | .arr [.str id, signer] => (optionalText signer).map fun s => ⟨id, s, []⟩
  | .arr [.str id, signer, signers] => do
    let s ← optionalText signer
    let l ← textsOf signers
    some ⟨id, s, l⟩
  | _ => none

/-- Whether a key may announce the chain of a document. -/
def announcedBy (chain : MirrorChain) (pubkey : Bytes) : Bool :=
  chain.signer == some pubkey || chain.signers.contains pubkey

def withoutSlashes (mirror : Bytes) : Bytes := mirror.rdropWhile (· == 0x2f)

def chainJsonUrl (mirror : Bytes) : Bytes :=
  withoutSlashes mirror ++
    ascii ['/', 'c', 'h', 'a', 'i', 'n', '.', 'j', 's', 'o', 'n']

def chainEventUrl (mirror : Bytes) : Bytes :=
  withoutSlashes mirror ++ ascii ['/', 'c', 'h', 'a', 'i', 'n', '-', 'e', 'v', 'e', 'n', 't',
    '.', 'j', 's', 'o', 'n']

/-- What others answer; `fetchJson` and `getTip` by how often they were asked before. -/
structure Lookups (F : Type) where
  getTip : ℕ → Bytes → Option Tip
  getEvent : Bytes → Option Event
  fetchJson : ℕ → Bytes → Option (Json F)

/-- The first mirror whose document has the id and names the announcer, and what was
served by address, the newest first. -/
def chooseMirror (l : Lookups F) (tip : Tip) (chainId : Bytes) :
    ℕ → List Bytes → List (Bytes × Json F) → Res ResolveError (Bytes × List (Bytes × Json F))
  | _, [], _ => .err (.noMirror chainId tip.tip)
  | i, m :: mirrors, served =>
    match l.fetchJson i (chainJsonUrl m) with
    | none => chooseMirror l tip chainId (i + 1) mirrors served
    | some v =>
      match mirrorOf v with
      | none => chooseMirror l tip chainId (i + 1) mirrors served
      | some chain =>
        if chain.id = chainId ∧ announcedBy chain tip.pubkey = true then
          .ok (m, (chainJsonUrl m, v) :: served)
        else chooseMirror l tip chainId (i + 1) mirrors ((chainJsonUrl m, v) :: served)

/-- The first mirror's answer that has the id. -/
def eventFromMirrors (l : Lookups F) (id : Bytes) : ℕ → List Bytes → Option (Json F)
  | _, [] => none
  | i, m :: mirrors =>
    match l.fetchJson i (chainEventUrl m) with
    | some (.obj fields) =>
      if (fieldOf fields keyId).any (isText id) then some (.obj fields)
      else eventFromMirrors l id (i + 1) mirrors
    | _ => eventFromMirrors l id (i + 1) mirrors

/-! ### Resolving -/

/-- What was settled on. -/
structure Resolved (F : Type) where
  /-- None for a chain without one. -/
  hash : Option Bytes
  «alias» : Bytes
  pubkey : Bytes
  chain : Json F
  tip : Option Tip
  mirror : Option Bytes
  mirrors : List Bytes
  legacy : Bool

/-- The hash to find: the one given, or the one the tip names. -/
def wantedHash (tip : Option Tip) (hash : Option Bytes) : Option Bytes :=
  (hash.map toLower) <|> (tip.bind Tip.chainHash)

/-- A chain without a hash, from the first mirror that checks out. -/
def resolveLegacy (l : Lookups F) («alias» : Bytes) (tip : Option Tip) : Res ResolveError (Resolved F) :=
  match tip with
  | none => .err (.chain "no announcement")
  | some tip => do
    let (mirror, served) ← chooseMirror l tip «alias» 0 tip.mirrors []
    let chain ← Res.expect (fieldOf served (chainJsonUrl mirror))
    .ok ⟨none, «alias», tip.pubkey, chain, some tip, some mirror, tip.mirrors, true⟩

/-- The signers a document lists. -/
def listedSigners : Json F → List (Json F)
  | .obj fields => ((fieldOf fields keySigners).bind asArray).getD []
  | _ => []

/-- The tip is by the chain's key or one of its signers, and names no other chain. -/
def checkTip (parsed : ParsedChain F) (id : Bytes) : Option Tip → Res ResolveError Unit
  | none => .ok ()
  | some t => do
    Res.refuseIf (t.pubkey != parsed.pubkey && !(listedSigners parsed.chain).any (isText t.pubkey))
      (.chain "the tip is not by the chain's signer")
    Res.refuseIf (t.chainHash.any fun h => h != id) (.chain "the newest tip names another chain")

variable [Bitcoin] [EventCodec]

/-- The chain event of a hash, from a relay or else from a mirror the tip names. -/
def chainEventFor (l : Lookups F) (tip : Option Tip) (id : Bytes) : Res ResolveError (ParsedChain F) :=
  match l.getEvent id with
  | some ev => parseChainEvent ev
  | none =>
    match tip.bind fun t => eventFromMirrors l id 0 t.mirrors with
    | some v => parseChainEventValue v
    | none => .err (.chain "the chain event is on none of the relays")

def resolveChain (l : Lookups F) («alias» hash : Option Bytes) : Res ResolveError (Resolved F) := do
  Res.refuseIf (hash.any fun h => !isChainHash h) .hex
  Res.refuseIf («alias».isNone && hash.isNone) (.chain "a chain is resolved by its alias or its hash")
  let tip := «alias».bind (l.getTip 0)
  match wantedHash tip hash with
  | none => do
    let «alias» ← Res.expect «alias»
    resolveLegacy l «alias» tip
  | some id => do
    let parsed ← chainEventFor l tip id
    Res.refuseIf (parsed.hash != id) (.chain "the event found is not the one asked for")
    let tip := tip <|> l.getTip (if «alias».isSome then 1 else 0) parsed.«alias»
    checkTip parsed id tip
    .ok ⟨some id, parsed.«alias», parsed.pubkey, parsed.chain, tip, tip.bind fun t => t.mirrors.head?,
      (tip.map Tip.mirrors).getD [], false⟩

/-! ### Parents that are chains -/

/-- How many chains are followed. -/
def maxNesting : ℕ := 16

structure NestedParent where
  hash : Bytes
  «alias» : Bytes
  /-- The hashes from the parent to the one under the root. -/
  path : List Bytes
  root : Parent

inductive ParentRef
  | table (p : Parent)
  | chain (p : NestedParent)

/-- The document of a hash, from the event that has it. -/
def nestedDocument (F : Type) [ChainCodec F] (getEvent : ℕ → Bytes → Option Event) (i : ℕ)
    (hash : Bytes) : Res ResolveError ChainDocument := do
  let ev ← Res.okOr (.chain "the parent chain's event was not found") (getEvent i hash)
  let parsed : ParsedChain F ← parseChainEvent ev
  Res.refuseIf (parsed.hash != hash) (.chain "the event found is not the one asked for")
  Res.okOr (.content "the chain document does not parse") (ChainCodec.documentOf parsed.chain)

omit [Bitcoin] [EventCodec] in
/-- The hashes asked for, in order, and what came of it. -/
def followParents (lookup : ℕ → Bytes → Res ResolveError ChainDocument) (hash : Bytes) :
    ℕ → List Bytes → Option Bytes → Bytes → List Bytes × Res ResolveError ParentRef
  | 0, path, _, _ => (path, .err (.document "nested too deep"))
  | fuel + 1, path, «alias», next =>
    if path.contains next then (path, .err (.document "names itself among its own parents"))
    else
      match lookup path.length next with
      | .err e => (path ++ [next], .err e)
      | .panic => (path ++ [next], .panic)
      | .ok doc =>
        if isChainHash doc.parent then
          followParents lookup hash fuel (path ++ [next]) (some («alias».getD doc.id))
            (toLower doc.parent)
        else
          match resolveParent doc.parent with
          | .ok root => (path ++ [next], .ok (.chain ⟨hash, «alias».getD doc.id, path ++ [next], root⟩))
          | .err _ => (path ++ [next], .err (.parent doc.parent))
          | .panic => (path ++ [next], .panic)

/-- A parent by the table or, when it is a hash, by the chains above. -/
def resolveNestedParent (F : Type) [ChainCodec F] (getEvent : ℕ → Bytes → Option Event)
    (parent : Bytes) : List Bytes × Res ResolveError ParentRef :=
  if isChainHash parent then
    followParents (nestedDocument F getEvent) (toLower parent) maxNesting [] none (toLower parent)
  else
    match resolveParent parent with
    | .ok p => ([], .ok (.table p))
    | .err _ => ([], .err (.parent parent))
    | .panic => ([], .panic)

/-! ### What was read -/

/-- What a chain event that was read back is. -/
theorem parseChainEvent_ok {ev : Event} {p : ParsedChain F} (h : parseChainEvent ev = .ok p) :
    p.hash = ev.id ∧ p.pubkey = ev.pubkey ∧ ev.kind = kindChainDocument ∧ ev.verify = true ∧
      ∃ fields, ChainCodec.fromStr ev.content = some (.obj fields : Json F) ∧
        fieldOf fields keyId = some (.str p.alias) ∧ p.chain = .obj (withSigner fields ev.pubkey) := by
  unfold parseChainEvent at h
  obtain ⟨_, hkind, h⟩ := Res.bind_eq_ok.mp h
  obtain ⟨_, hverify, h⟩ := Res.bind_eq_ok.mp h
  obtain ⟨chain, hchain, h⟩ := Res.bind_eq_ok.mp h
  rw [Res.refuseIf_eq_ok, bne_eq_false_iff_eq] at hkind
  rw [Res.refuseIf_eq_ok, Bool.not_eq_false'] at hverify
  rw [Res.okOr_eq_ok] at hchain
  split at h
  · rename_i fields
    split at h
    · rename_i name hid
      obtain ⟨_, hsigner, h⟩ := Res.bind_eq_ok.mp h
      obtain ⟨_, hsigners, h⟩ := Res.bind_eq_ok.mp h
      rw [Res.ok.injEq] at h
      subst h
      exact ⟨rfl, rfl, hkind, hverify, fields, hchain, hid, rfl⟩
    · cases h
  · cases h

theorem parseChainEventValue_ok {v : Json F} {p : ParsedChain F}
    (h : parseChainEventValue v = .ok p) : ∃ ev, parseChainEvent ev = .ok p := by
  unfold parseChainEventValue at h
  split at h
  · split at h
    · split_ifs at h
      split at h
      · rename_i ev hev
        exact ⟨ev, h⟩
      · cases h
    · cases h
  · cases h

theorem chainEventFor_ok {l : Lookups F} {tip : Option Tip} {id : Bytes} {p : ParsedChain F}
    (h : chainEventFor l tip id = .ok p) : ∃ ev, parseChainEvent ev = .ok p := by
  unfold chainEventFor at h
  split at h
  · exact ⟨_, h⟩
  · split at h
    · exact parseChainEventValue_ok h
    · cases h

omit [ChainCodec F] [Bitcoin] [EventCodec] in
theorem isText_eq {s : Bytes} {v : Json F} (h : isText s v = true) : v = .str s := by
  unfold isText at h
  split at h
  · rw [eq_of_beq h]
  · cases h

omit [ChainCodec F] [Bitcoin] [EventCodec] in
theorem checkTip_ok {parsed : ParsedChain F} {id : Bytes} {t : Tip}
    (h : checkTip parsed id (some t) = .ok ()) :
    (t.pubkey = parsed.pubkey ∨ .str t.pubkey ∈ listedSigners parsed.chain) ∧
      ∀ c, t.chainHash = some c → c = id := by
  unfold checkTip at h
  obtain ⟨_, hsigner, hhash⟩ := Res.bind_eq_ok.mp h
  rw [Res.refuseIf_eq_ok, Bool.and_eq_false_iff, bne_eq_false_iff_eq, Bool.not_eq_false'] at hsigner
  rw [Res.refuseIf_eq_ok] at hhash
  refine ⟨?_, ?_⟩
  · rcases hsigner with hsame | hlisted
    · exact .inl hsame
    · obtain ⟨v, hv, htext⟩ := List.any_eq_true.mp hlisted
      exact .inr (isText_eq htext ▸ hv)
  · intro c hc
    rw [hc, Option.any_some, bne_eq_false_iff_eq] at hhash
    exact hhash

omit [ChainCodec F] [Bitcoin] [EventCodec] in
/-- What the mirror that was chosen served. -/
theorem chooseMirror_ok {l : Lookups F} {tip : Tip} {chainId : Bytes} : ∀ {mirrors : List Bytes}
    {i : ℕ} {served : List (Bytes × Json F)} {m : Bytes} {served' : List (Bytes × Json F)},
    chooseMirror l tip chainId i mirrors served = .ok (m, served') →
    ∃ v chain, fieldOf served' (chainJsonUrl m) = some v ∧ mirrorOf v = some chain ∧
      chain.id = chainId ∧ announcedBy chain tip.pubkey = true
  | [], _, _, _, _, h => by cases h
  | m :: mirrors, i, served, m', served', h => by
    rw [chooseMirror] at h
    split at h
    · exact chooseMirror_ok h
    · rename_i v hv
      split at h
      · exact chooseMirror_ok h
      · rename_i chain hchain
        split_ifs at h with hgood
        · rw [Res.ok.injEq, Prod.mk.injEq] at h
          obtain ⟨rfl, rfl⟩ := h
          refine ⟨v, chain, ?_, hchain, hgood.1, hgood.2⟩
          have hfind : ((chainJsonUrl m, v) :: served).find? (fun f => f.1 == chainJsonUrl m) =
              some (chainJsonUrl m, v) := by
            rw [List.find?_cons_of_pos]
            exact beq_self_eq_true (chainJsonUrl m)
          unfold fieldOf
          rw [hfind]
          rfl
        · exact chooseMirror_ok h

omit [ChainCodec F] [Bitcoin] [EventCodec] in
theorem textOf_eq {v : Json F} {s : Bytes} (h : textOf v = some s) : v = .str s := by
  unfold textOf at h
  split at h
  · rw [Option.some.inj h]
  · cases h

omit [ChainCodec F] [Bitcoin] [EventCodec] in
theorem mapM_textOf {s : Bytes} : ∀ {l : List (Json F)} {texts : List Bytes},
    l.mapM textOf = some texts → s ∈ texts → .str s ∈ l
  | [], texts, h, hs => by
    cases h
    cases hs
  | v :: l, texts, h, hs => by
    rw [List.mapM_cons] at h
    obtain ⟨x, hx, h⟩ := Option.bind_eq_some_iff.mp h
    obtain ⟨xs, hxs, h⟩ := Option.bind_eq_some_iff.mp h
    cases h
    rcases List.mem_cons.mp hs with rfl | hs
    · exact textOf_eq hx ▸ List.mem_cons_self
    · exact List.mem_cons_of_mem _ (mapM_textOf hxs hs)

/-- The document names or lists the key. -/
def Authorises (chain : Json F) (pubkey : Bytes) : Prop :=
  ∃ fields, chain = .obj fields ∧
    (fieldOf fields keySignerField = some (.str pubkey) ∨ .str pubkey ∈ listedSigners chain)

omit [ChainCodec F] [Bitcoin] [EventCodec] in
theorem signerField_some {fields : List (Bytes × Json F)} {pubkey : Bytes}
    (h : signerField fields = some (some pubkey)) :
    fieldOf fields keySignerField = some (.str pubkey) := by
  unfold signerField optionalText at h
  split at h
  · cases h
  · rename_i v hv
    rw [hv]
    split at h
    · cases h
    · rw [Option.some.inj (Option.some.inj h)]
    · cases h

omit [ChainCodec F] [Bitcoin] [EventCodec] in
theorem signersField_mem {fields : List (Bytes × Json F)} {signers : List Bytes} {pubkey : Bytes}
    (h : signersField fields = some signers) (hmem : pubkey ∈ signers) :
    .str pubkey ∈ listedSigners (.obj fields) := by
  unfold signersField at h
  split at h
  · cases h
    cases hmem
  · rename_i v hv
    obtain ⟨items, hitems, htexts⟩ := Option.bind_eq_some_iff.mp h
    unfold listedSigners
    dsimp only
    rw [hv, Option.bind_some, hitems, Option.getD_some]
    exact mapM_textOf htexts hmem

omit [ChainCodec F] [Bitcoin] [EventCodec] in
/-- What a mirror's object says is what is read from it. -/
theorem mirrorOf_obj {fields : List (Bytes × Json F)} {chain : MirrorChain}
    (h : mirrorOf (.obj fields) = some chain) : fieldOf fields keyId = some (.str chain.id) ∧
      ∀ pubkey, announcedBy chain pubkey = true → Authorises (.obj fields) pubkey := by
  unfold mirrorOf at h
  obtain ⟨id, hid, h⟩ := Option.bind_eq_some_iff.mp h
  obtain ⟨signer, hsigner, h⟩ := Option.bind_eq_some_iff.mp h
  obtain ⟨signers, hsigners, h⟩ := Option.bind_eq_some_iff.mp h
  cases h
  obtain ⟨v, hv, htext⟩ := Option.bind_eq_some_iff.mp hid
  refine ⟨by rw [hv, textOf_eq htext], fun pubkey hannounced => ⟨fields, rfl, ?_⟩⟩
  unfold announcedBy at hannounced
  rw [Bool.or_eq_true, beq_iff_eq, List.contains_iff_mem] at hannounced
  rcases hannounced with hone | hmany
  · exact .inl (signerField_some (hone ▸ hsigner))
  · exact .inr (signersField_mem hsigners hmany)

/-! ### What was asked for -/

/-- What is resolved is what was asked for. -/
structure AsAsked («alias» hash : Option Bytes) (r : Resolved F) : Prop where
  name : ∀ a, «alias» = some a → r.alias = a
  hash : ∀ h, hash = some h → r.hash = some (toLower h)
  /-- The document is that of an event that verifies, has the hash and is the key's. -/
  event : r.legacy = false → ∃ (ev : Event) (fields : List (Bytes × Json F)),
    r.hash = some ev.id ∧ ev.verify = true ∧ ev.kind = kindChainDocument ∧ ev.pubkey = r.pubkey ∧
    ChainCodec.fromStr ev.content = some (.obj fields : Json F) ∧
    fieldOf fields keyId = some (.str r.alias) ∧ r.chain = .obj (withSigner fields r.pubkey)
  /-- The tip is the chain's, by its key or one of its signers, and names no other. -/
  tip : r.legacy = false → ∀ t, r.tip = some t → t.chainId = r.alias ∧
    (t.pubkey = r.pubkey ∨ .str t.pubkey ∈ listedSigners r.chain) ∧
    ∀ c, t.chainHash = some c → r.hash = some c
  /-- The document has the alias and names the announcer. -/
  legacy : r.legacy = true → «alias» = some r.alias ∧ (∃ t, r.tip = some t ∧ t.pubkey = r.pubkey) ∧
    (∃ fields, r.chain = .obj fields ∧ fieldOf fields keyId = some (.str r.alias)) ∧
    Authorises r.chain r.pubkey

/-- The document of the hash to find has the alias that is asked for, and a mirror's
document is not written as an array. -/
structure Named (l : Lookups F) («alias» hash : Option Bytes) : Prop where
  document : ∀ id parsed, wantedHash («alias».bind (l.getTip 0)) hash = some id →
    chainEventFor l («alias».bind (l.getTip 0)) id = .ok parsed → ∀ a, «alias» = some a →
      parsed.alias = a
  mirror : wantedHash («alias».bind (l.getTip 0)) hash = none → ∀ a tip m served v,
    «alias» = some a → «alias».bind (l.getTip 0) = some tip →
    chooseMirror l tip a 0 tip.mirrors [] = .ok (m, served) →
    fieldOf served (chainJsonUrl m) = some v → ∃ fields, v = .obj fields

/-- A chain resolved by its hash. -/
theorem resolveChain_hash {l : Lookups F} {«alias» hash : Option Bytes} {r : Resolved F}
    {id : Bytes} (hid : wantedHash («alias».bind (l.getTip 0)) hash = some id)
    (h : resolveChain l «alias» hash = .ok r) :
    ∃ parsed tip, chainEventFor l («alias».bind (l.getTip 0)) id = .ok parsed ∧ parsed.hash = id ∧
      tip = («alias».bind (l.getTip 0) <|>
        l.getTip (if «alias».isSome then 1 else 0) parsed.alias) ∧ checkTip parsed id tip = .ok () ∧
      r = ⟨some id, parsed.alias, parsed.pubkey, parsed.chain, tip,
        tip.bind fun t => t.mirrors.head?, (tip.map Tip.mirrors).getD [], false⟩ := by
  unfold resolveChain at h
  obtain ⟨_, hhex, h⟩ := Res.bind_eq_ok.mp h
  obtain ⟨_, hsome, h⟩ := Res.bind_eq_ok.mp h
  dsimp only at h
  rw [hid] at h
  dsimp only at h
  obtain ⟨parsed, hparsed, h⟩ := Res.bind_eq_ok.mp h
  obtain ⟨_, hsame, h⟩ := Res.bind_eq_ok.mp h
  obtain ⟨u, hcheck, h⟩ := Res.bind_eq_ok.mp h
  rw [Res.refuseIf_eq_ok, bne_eq_false_iff_eq] at hsame
  rw [Res.ok.injEq] at h
  exact ⟨parsed, _, hparsed, hsame, rfl, hcheck, h.symm⟩

/-- A chain resolved by its mirror. -/
theorem resolveChain_legacy {l : Lookups F} {«alias» hash : Option Bytes} {r : Resolved F}
    (hid : wantedHash («alias».bind (l.getTip 0)) hash = none)
    (h : resolveChain l «alias» hash = .ok r) :
    ∃ a tip m served v, «alias» = some a ∧ «alias».bind (l.getTip 0) = some tip ∧
      chooseMirror l tip a 0 tip.mirrors [] = .ok (m, served) ∧
      fieldOf served (chainJsonUrl m) = some v ∧
      r = ⟨none, a, tip.pubkey, v, some tip, some m, tip.mirrors, true⟩ := by
  unfold resolveChain at h
  obtain ⟨_, hhex, h⟩ := Res.bind_eq_ok.mp h
  obtain ⟨_, hsome, h⟩ := Res.bind_eq_ok.mp h
  dsimp only at h
  rw [hid] at h
  dsimp only at h
  obtain ⟨a, ha, h⟩ := Res.bind_eq_ok.mp h
  have halias : «alias» = some a := by
    cases hc : «alias» with
    | none =>
      rw [hc] at ha
      cases ha
    | some b =>
      rw [hc, Res.expect_some, Res.ok.injEq] at ha
      rw [ha]
  unfold resolveLegacy at h
  split at h
  · cases h
  · rename_i tip htip
    obtain ⟨⟨m, served⟩, hchoose, h⟩ := Res.bind_eq_ok.mp h
    dsimp only at h
    obtain ⟨v, hv, h⟩ := Res.bind_eq_ok.mp h
    obtain ⟨w, chain, hw, -⟩ := chooseMirror_ok hchoose
    rw [hw, Res.expect_some, Res.ok.injEq] at hv
    rw [Res.ok.injEq] at h
    rw [hv] at hw
    exact ⟨a, tip, m, served, v, halias, htip, hchoose, hw, h.symm⟩

omit [ChainCodec F] [Bitcoin] [EventCodec] in
/-- A hash that is given is the hash to find. -/
theorem wantedHash_given {tip : Option Tip} {h : Bytes} : wantedHash tip (some h) = some (toLower h) :=
  rfl

/-- A chain found by its hash. -/
theorem asAsked_of_hash {l : Lookups F} {«alias» hash : Option Bytes} {r : Resolved F} {id : Bytes}
    (htip : ∀ n a t, l.getTip n a = some t → t.chainId = a) (hnamed : Named l «alias» hash)
    (hid : wantedHash («alias».bind (l.getTip 0)) hash = some id)
    (h : resolveChain l «alias» hash = .ok r) : AsAsked «alias» hash r := by
  obtain ⟨parsed, tip, hparsed, hsame, htipeq, hcheck, hr⟩ := resolveChain_hash hid h
  have hname := hnamed.document id parsed hid hparsed
  obtain ⟨ev, hev⟩ := chainEventFor_ok hparsed
  obtain ⟨hhash, hauthor, hkind, hverify, fields, hcontent, hfield, hchain⟩ := parseChainEvent_ok hev
  subst hr
  refine ⟨hname, ?_, fun _ => ?_, fun _ t ht => ?_, fun hlegacy => (by cases hlegacy)⟩
  · rintro c rfl
    rw [wantedHash_given] at hid
    exact hid.symm
  · exact ⟨ev, fields, by rw [← hhash, hsame], hverify, hkind, hauthor.symm, hcontent, hfield,
      by rw [hauthor]; exact hchain⟩
  · dsimp only at ht
    rw [ht] at hcheck
    obtain ⟨hsigner, hother⟩ := checkTip_ok hcheck
    refine ⟨?_, hsigner, fun c hc => congrArg some (hother c hc).symm⟩
    cases hfirst : «alias».bind (l.getTip 0) with
    | none =>
      rw [ht, hfirst] at htipeq
      exact htip _ _ t htipeq.symm
    | some t' =>
      -- The tip came by the alias that was asked for.
      obtain ⟨a, ha, hget⟩ := Option.bind_eq_some_iff.mp hfirst
      rw [ht, hfirst] at htipeq
      have hsame' : t = t' := Option.some.inj htipeq
      rw [hsame', htip 0 a t' hget]
      exact (hname a ha).symm

/-- A chain found on a mirror. -/
theorem asAsked_of_mirror {l : Lookups F} {«alias» hash : Option Bytes} {r : Resolved F}
    (hnamed : Named l «alias» hash) (hid : wantedHash («alias».bind (l.getTip 0)) hash = none)
    (h : resolveChain l «alias» hash = .ok r) : AsAsked «alias» hash r := by
  obtain ⟨a, tip, m, served, v, ha, htip, hchoose, hv, hr⟩ := resolveChain_legacy hid h
  obtain ⟨fields, hfields⟩ := hnamed.mirror hid a tip m served v ha htip hchoose hv
  obtain ⟨w, chain, hw, hmirror, hchain, hannounced⟩ := chooseMirror_ok hchoose
  rw [hv, Option.some.injEq] at hw
  rw [← hw, hfields] at hmirror
  obtain ⟨hfield, hauthorised⟩ := mirrorOf_obj hmirror
  rw [hchain] at hfield
  subst hr
  refine ⟨fun b hb => ?_, ?_, fun hlegacy => (by cases hlegacy), fun hlegacy => (by cases hlegacy),
    fun _ => ?_⟩
  · rw [ha, Option.some.injEq] at hb
    exact hb
  · rintro c rfl
    rw [wantedHash_given] at hid
    cases hid
  · exact ⟨ha, ⟨tip, rfl, rfl⟩, ⟨fields, hfields, hfield⟩, hfields ▸ hauthorised _ hannounced⟩

/-! ### The chains above -/

/-- The event answered for a hash verifies, has the hash and carries the document. -/
def Above (F : Type) [ChainCodec F] (getEvent : ℕ → Bytes → Option Event) (i : ℕ) (hash : Bytes)
    (doc : ChainDocument) : Prop :=
  ∃ (ev : Event) (parsed : ParsedChain F), getEvent i hash = some ev ∧ ev.id = hash ∧
    ev.kind = kindChainDocument ∧ ev.verify = true ∧ parseChainEvent ev = .ok parsed ∧
    ChainCodec.documentOf parsed.chain = some doc

theorem nestedDocument_ok {getEvent : ℕ → Bytes → Option Event} {i : ℕ} {hash : Bytes}
    {doc : ChainDocument} (h : nestedDocument F getEvent i hash = .ok doc) :
    Above F getEvent i hash doc := by
  unfold nestedDocument at h
  obtain ⟨ev, hev, h⟩ := Res.bind_eq_ok.mp h
  obtain ⟨parsed, hparsed, h⟩ := Res.bind_eq_ok.mp h
  obtain ⟨_, hsame, hdoc⟩ := Res.bind_eq_ok.mp h
  rw [Res.okOr_eq_ok] at hev hdoc
  rw [Res.refuseIf_eq_ok, bne_eq_false_iff_eq] at hsame
  obtain ⟨hhash, -, hkind, hverify, -⟩ := parseChainEvent_ok hparsed
  exact ⟨ev, parsed, hev, hhash ▸ hsame, hkind, hverify, hparsed, hdoc⟩

/-- Each hash is looked up and its document names the next one, the last one a row of
the table. -/
def Climbs (lookup : ℕ → Bytes → Res ResolveError ChainDocument) (root : Parent) :
    ℕ → List Bytes → Prop
  | _, [] => False
  | i, [hash] => ∃ doc, lookup i hash = .ok doc ∧ isChainHash doc.parent = false ∧
      resolveParent doc.parent = .ok root
  | i, hash :: next :: path => (∃ doc, lookup i hash = .ok doc ∧ isChainHash doc.parent = true ∧
      toLower doc.parent = next) ∧ Climbs lookup root (i + 1) (next :: path)

omit [Bitcoin] [EventCodec] in
/-- Every level was looked up. -/
theorem Climbs.lookup {lookup : ℕ → Bytes → Res ResolveError ChainDocument} {root : Parent} :
    ∀ {path : List Bytes} {i : ℕ}, Climbs lookup root i path →
      ∀ k hash, path[k]? = some hash → ∃ doc, lookup (i + k) hash = .ok doc
  | [], _, h => h.elim
  | [hash], i, h => by
    intro k c hc
    obtain ⟨doc, hdoc, -, -⟩ := h
    cases k with
    | zero =>
      cases hc
      exact ⟨doc, hdoc⟩
    | succ k => cases hc
  | hash :: next :: path, i, h => by
    intro k c hc
    cases k with
    | zero =>
      cases hc
      obtain ⟨⟨doc, hdoc, -, -⟩, -⟩ := h
      exact ⟨doc, hdoc⟩
    | succ k =>
      have := Climbs.lookup h.2 k c hc
      rwa [Nat.add_right_comm, Nat.add_assoc] at this

omit [Bitcoin] [EventCodec] in
/-- No hash is asked for twice, and no more than the fuel allows. -/
theorem followParents_asked (lookup : ℕ → Bytes → Res ResolveError ChainDocument) (hash : Bytes) :
    ∀ (fuel : ℕ) (path : List Bytes) («alias» : Option Bytes) (next : Bytes), path.Nodup →
      (followParents lookup hash fuel path «alias» next).1.Nodup ∧
        (followParents lookup hash fuel path «alias» next).1.length ≤ path.length + fuel
  | 0, path, _, _, hpath => ⟨hpath, le_rfl⟩
  | fuel + 1, path, «alias», next, hpath => by
    rw [followParents]
    split_ifs with hseen
    · exact ⟨hpath, Nat.le_add_right _ _⟩
    · rw [List.contains_iff_mem] at hseen
      have hnext : (path ++ [next]).Nodup :=
        List.nodup_append.mpr ⟨hpath, List.nodup_singleton _, fun a ha b hb hab => by
          rw [List.mem_singleton] at hb
          exact hseen (hb ▸ hab ▸ ha)⟩
      have hlen : (path ++ [next]).length = path.length + 1 := by
        rw [List.length_append, List.length_singleton]
      have hstop : (path ++ [next]).length ≤ path.length + (fuel + 1) := by omega
      split
      · exact ⟨hnext, hstop⟩
      · exact ⟨hnext, hstop⟩
      · rename_i doc hdoc
        split_ifs
        · obtain ⟨hn, hl⟩ := followParents_asked lookup hash fuel (path ++ [next])
            (some («alias».getD doc.id)) (toLower doc.parent) hnext
          exact ⟨hn, by omega⟩
        · split
          · exact ⟨hnext, hstop⟩
          · exact ⟨hnext, hstop⟩
          · exact ⟨hnext, hstop⟩

omit [Bitcoin] [EventCodec] in
/-- The path that is returned climbs to the root. -/
theorem followParents_ok {lookup : ℕ → Bytes → Res ResolveError ChainDocument} {hash : Bytes} :
    ∀ {fuel : ℕ} {path : List Bytes} {«alias» : Option Bytes} {next : Bytes} {r : ParentRef},
      (followParents lookup hash fuel path «alias» next).2 = .ok r →
      ∃ (p : NestedParent) (levels : List Bytes), r = .chain p ∧ p.hash = hash ∧
        p.path = path ++ next :: levels ∧
        (followParents lookup hash fuel path «alias» next).1 = p.path ∧
        Climbs lookup p.root path.length (next :: levels)
  | 0, path, «alias», next, r, h => by cases h
  | fuel + 1, path, «alias», next, r, h => by
    rw [followParents] at h ⊢
    split_ifs at h ⊢ with hseen
    cases hdoc : lookup path.length next with
    | err e =>
      rw [hdoc] at h
      cases h
    | panic =>
      rw [hdoc] at h
      cases h
    | ok doc =>
      rw [hdoc] at h
      dsimp only at h ⊢
      split_ifs at h ⊢ with hchain
      · obtain ⟨p, levels, hr, hhash, hpath, hasked, hclimbs⟩ := followParents_ok h
        rw [List.length_append, List.length_singleton] at hclimbs
        rw [List.append_assoc, List.singleton_append] at hpath
        exact ⟨p, _ :: levels, hr, hhash, hpath, hasked, ⟨doc, hdoc, hchain, rfl⟩, hclimbs⟩
      · rw [Bool.not_eq_true] at hchain
        cases hroot : resolveParent doc.parent with
        | ok root =>
          rw [hroot] at h
          dsimp only at h
          rw [Res.ok.injEq] at h
          exact ⟨_, [], h.symm, rfl, rfl, rfl, doc, hdoc, hchain, hroot⟩
        | err e =>
          rw [hroot] at h
          cases h
        | panic =>
          rw [hroot] at h
          cases h

/-- No event is asked for twice, and at most `maxNesting` of them; the events of a
nested parent are those of its path. -/
structure NestedAsAsked (F : Type) [ChainCodec F] (getEvent : ℕ → Bytes → Option Event)
    (parent : Bytes) : Prop where
  once : (resolveNestedParent F getEvent parent).1.Nodup
  bounded : (resolveNestedParent F getEvent parent).1.length ≤ maxNesting
  verified : ∀ p, (resolveNestedParent F getEvent parent).2 = .ok (.chain p) →
    p.hash = toLower parent ∧ p.path.head? = some p.hash ∧
      (resolveNestedParent F getEvent parent).1 = p.path ∧
      Climbs (nestedDocument F getEvent) p.root 0 p.path ∧
      ∀ i hash, p.path[i]? = some hash → ∃ doc, Above F getEvent i hash doc

theorem nested_as_asked (getEvent : ℕ → Bytes → Option Event) (parent : Bytes) :
    NestedAsAsked F getEvent parent := by
  by_cases hchain : isChainHash parent = true
  · have hrun : resolveNestedParent F getEvent parent =
        followParents (nestedDocument F getEvent) (toLower parent) maxNesting [] none
          (toLower parent) := if_pos hchain
    obtain ⟨honce, hbounded⟩ := followParents_asked (nestedDocument F getEvent) (toLower parent)
      maxNesting [] none (toLower parent) List.nodup_nil
    refine ⟨by rw [hrun]; exact honce, ?_, fun p hp => ?_⟩
    · rw [List.length_nil, Nat.zero_add] at hbounded
      rw [hrun]
      exact hbounded
    · rw [hrun] at hp ⊢
      obtain ⟨q, levels, hq, hhash, hpath, hasked, hclimbs⟩ := followParents_ok hp
      cases hq
      rw [List.nil_append] at hpath
      rw [← hpath] at hclimbs
      refine ⟨hhash, by rw [hpath, hhash]; rfl, hasked, hclimbs, fun i c hc => ?_⟩
      obtain ⟨doc, hdoc⟩ := hclimbs.lookup i c hc
      rw [List.length_nil, Nat.zero_add] at hdoc
      exact ⟨doc, nestedDocument_ok hdoc⟩
  · have hrun : (resolveNestedParent F getEvent parent).1 = [] ∧
        ∀ p, (resolveNestedParent F getEvent parent).2 ≠ .ok (.chain p) := by
      unfold resolveNestedParent
      rw [if_neg hchain]
      split
      · exact ⟨rfl, fun p hp => (by cases hp)⟩
      · exact ⟨rfl, fun p hp => (by cases hp)⟩
      · exact ⟨rfl, fun p hp => (by cases hp)⟩
    refine ⟨by rw [hrun.1]; exact List.nodup_nil, by rw [hrun.1]; exact Nat.zero_le _, ?_⟩
    exact fun p hp => absurd hp (hrun.2 p)

/-! ### What is read and resolved -/

/-- A document that names no signer is read as its author's. -/
theorem parseChainEvent_unsigned {ev : Event} {fields : List (Bytes × Json F)} {name : Bytes}
    (hkind : ev.kind = kindChainDocument) (hverify : ev.verify = true)
    (hcontent : ChainCodec.fromStr ev.content = some (.obj fields : Json F))
    (hid : fieldOf fields keyId = some (.str name))
    (hsigner : fieldOf fields keySignerField = none) (hsigners : fieldOf fields keySigners = none) :
    parseChainEvent ev = .ok ⟨ev.id, name, ev.pubkey, .obj (withSigner fields ev.pubkey), ev⟩ := by
  unfold parseChainEvent
  rw [hkind, hverify, hcontent, bne_self_eq_false]
  dsimp only [Res.okOr_some, Bool.not_true, Res.refuseIf_false, Res.ok_bind]
  rw [hid]
  dsimp only
  rw [hsigner, hsigners]
  rfl

/-- A chain is resolved by the tip its key announces. -/
theorem resolveChain_announced {l : Lookups F} {a : Bytes} {t : Tip} {parsed : ParsedChain F}
    (hget : l.getTip 0 a = some t) (hhash : t.chainHash = some parsed.hash)
    (hev : chainEventFor l (some t) parsed.hash = .ok parsed) (hkey : t.pubkey = parsed.pubkey) :
    resolveChain l (some a) none = .ok ⟨some parsed.hash, parsed.alias, parsed.pubkey,
      parsed.chain, some t, t.mirrors.head?, t.mirrors, false⟩ := by
  have htip : (some a).bind (l.getTip 0) = some t := hget
  have hwanted : wantedHash (some t) none = some parsed.hash := hhash
  have hcheck : checkTip parsed parsed.hash (some t) = .ok () := by
    unfold checkTip
    dsimp only
    rw [hkey, hhash, bne_self_eq_false, Option.any_some, bne_self_eq_false]
    rfl
  unfold resolveChain
  rw [htip]
  dsimp only
  rw [hwanted]
  dsimp only
  rw [hev, Option.any_none, Option.isNone_some, Bool.false_and, Res.refuseIf_false, Res.ok_bind,
    Res.refuseIf_false, Res.ok_bind, Res.ok_bind, bne_self_eq_false, Res.refuseIf_false, Res.ok_bind]
  change (checkTip parsed parsed.hash (some t) >>= _) = _
  rw [hcheck]
  rfl

/-- **What is resolved is what was asked for, exactly where the document has the
alias.** Nothing else compares the two when the hash is found first. -/
theorem resolved_as_asked_iff (l : Lookups F) («alias» hash : Option Bytes) (r : Resolved F)
    (htip : ∀ n a t, l.getTip n a = some t → t.chainId = a)
    (h : resolveChain l «alias» hash = .ok r) :
    (AsAsked «alias» hash r ↔ Named l «alias» hash) ∧
      ∀ getEvent parent, NestedAsAsked F getEvent parent := by
  refine ⟨⟨fun hasked => ?_, fun hnamed => ?_⟩, nested_as_asked⟩
  · refine ⟨?_, ?_⟩
    · intro id parsed hid hparsed a ha
      obtain ⟨parsed', tip, hparsed', -, -, -, hr⟩ := resolveChain_hash hid h
      rw [hparsed, Res.ok.injEq] at hparsed'
      have hname := hasked.name a ha
      rw [hr] at hname
      rw [hparsed']
      exact hname
    · intro hid a tip m served v ha htip hchoose hv
      obtain ⟨a', tip', m', served', v', ha', htip', hchoose', hv', hr⟩ := resolveChain_legacy hid h
      obtain ⟨-, -, ⟨fields, hfields, -⟩, -⟩ := hasked.legacy (by rw [hr])
      rw [ha, Option.some.injEq] at ha'
      rw [htip, Option.some.injEq] at htip'
      rw [← ha', ← htip', hchoose, Res.ok.injEq, Prod.mk.injEq] at hchoose'
      rw [← hchoose'.1, ← hchoose'.2, hv, Option.some.injEq] at hv'
      rw [hr] at hfields
      exact ⟨fields, hv'.trans hfields⟩
  · cases hid : wantedHash («alias».bind (l.getTip 0)) hash with
    | some id => exact asAsked_of_hash htip hnamed hid h
    | none => exact asAsked_of_mirror hnamed hid h

end

/-! ### A sample -/

section

attribute [local instance] sampleBitcoin sampleEventCodec

/-- The chain that is found. -/
def sampleAlias : Bytes := ascii ['s', 'i', 'd', 'e', 's', 't', 'r', ':', 'b']

/-- Another chain's alias. -/
def sampleOtherAlias : Bytes := ascii ['s', 'i', 'd', 'e', 's', 't', 'r', ':', 'a']

/-- The document: no more than its alias. -/
def sampleDocument : Bytes :=
  ascii ['\x7b', '\"', 'i', 'd', '\"', ':', '\"'] ++ sampleAlias ++ ascii ['\"', '\x7d']

/-- A codec that reads the sample's document. -/
@[reducible] def sampleChainCodec : ChainCodec Empty where
  fromStr s := if s = sampleDocument then some (.obj [(keyId, .str sampleAlias)]) else none
  eventOf _ := none
  documentOf _ := none

attribute [local instance] sampleChainCodec

/-- The document, signed. -/
def sampleChainEvent : Event :=
  ((keySigner.signEvent 1 ⟨[], 1, kindChainDocument, [], sampleDocument⟩).2).getD
    ⟨⟨[], 0, 0, [], []⟩, [], []⟩

/-- A tip of the key that names the event, under an alias. -/
def sampleTip («alias» : Bytes) : Tip :=
  ⟨«alias», 1, [], [], none, sampleChainEvent.pubkey, 1, [], some sampleChainEvent.id⟩

/-- One tip is announced, and the event is on a relay. -/
def sampleLookups («alias» : Bytes) : Lookups Empty where
  getTip _ a := if a = «alias» then some (sampleTip «alias») else none
  getEvent id := if id = sampleChainEvent.id then some sampleChainEvent else none
  fetchJson _ _ := none

theorem sampleLookups_tip («alias» : Bytes) (n : ℕ) (a : Bytes) (t : Tip)
    (h : (sampleLookups «alias»).getTip n a = some t) : t.chainId = a := by
  unfold sampleLookups at h
  dsimp only at h
  split_ifs at h with ha
  cases h
  exact ha.symm

/-- The document that is read. -/
def sampleParsed : ParsedChain Empty :=
  ⟨sampleChainEvent.id, sampleAlias, sampleChainEvent.pubkey,
    .obj (withSigner [(keyId, .str sampleAlias)] sampleChainEvent.pubkey), sampleChainEvent⟩

theorem sampleChainEvent_parses : parseChainEvent sampleChainEvent = .ok sampleParsed := by
  have hkind : sampleChainEvent.kind = kindChainDocument := by decide +kernel
  have hverify : sampleChainEvent.verify = true := by decide +kernel
  have hcontent : (ChainCodec.fromStr sampleChainEvent.content : Option (Json Empty)) =
      some (.obj [(keyId, .str sampleAlias)]) := if_pos (by decide +kernel)
  exact parseChainEvent_unsigned hkind hverify hcontent rfl rfl rfl

theorem sampleLookups_event («alias» : Bytes) (tip : Option Tip) :
    chainEventFor (sampleLookups «alias») tip sampleChainEvent.id = .ok sampleParsed := by
  have hget : (sampleLookups «alias»).getEvent sampleChainEvent.id = some sampleChainEvent := by
    unfold sampleLookups
    dsimp only
    rw [if_pos (Eq.refl sampleChainEvent.id)]
  unfold chainEventFor
  rw [hget]
  exact sampleChainEvent_parses

/-- What the sample resolves to. -/
def sampleResolved («alias» : Bytes) : Resolved Empty :=
  ⟨some sampleChainEvent.id, sampleAlias, sampleChainEvent.pubkey, sampleParsed.chain,
    some (sampleTip «alias»), none, [], false⟩

theorem sampleLookups_first («alias» : Bytes) :
    (sampleLookups «alias»).getTip 0 «alias» = some (sampleTip «alias») := if_pos rfl

theorem sampleLookups_resolves («alias» : Bytes) :
    resolveChain (sampleLookups «alias») (some «alias») none = .ok (sampleResolved «alias») := by
  have hhash : (sampleTip «alias»).chainHash = some sampleParsed.hash := by
    unfold sampleTip sampleParsed
    dsimp only
  have hkey : (sampleTip «alias»).pubkey = sampleParsed.pubkey := by
    unfold sampleTip sampleParsed
    dsimp only
  have hev : chainEventFor (sampleLookups «alias») (some (sampleTip «alias»)) sampleParsed.hash =
      .ok sampleParsed := by
    rw [← sampleLookups_event «alias» (some (sampleTip «alias»))]
    unfold sampleParsed
    dsimp only
  rw [resolveChain_announced (sampleLookups_first «alias») hhash hev hkey]
  unfold sampleResolved sampleTip sampleParsed
  dsimp only [List.head?_nil]

/-- A chain resolved by its own alias. -/
theorem resolved_as_asked_sample :
    AsAsked (some sampleAlias) none (sampleResolved sampleAlias) := by
  refine (resolved_as_asked_iff (sampleLookups sampleAlias) _ _ _ (sampleLookups_tip sampleAlias)
    (sampleLookups_resolves sampleAlias)).1.mpr ⟨?_, ?_⟩
  · intro id parsed hid hparsed a ha
    rw [Option.bind_some, sampleLookups_first] at hid hparsed
    have hfound : sampleChainEvent.id = id := Option.some.inj hid
    rw [← hfound, sampleLookups_event, Res.ok.injEq] at hparsed
    rw [← hparsed]
    exact Option.some.inj ha
  · intro hid
    rw [Option.bind_some, sampleLookups_first] at hid
    cases hid

/-- A tip announced under one alias resolves to the chain of another. -/
theorem another_alias_resolved : ¬ ∀ (l : Lookups Empty) («alias» hash : Option Bytes)
    (r : Resolved Empty), (∀ n a t, l.getTip n a = some t → t.chainId = a) →
    resolveChain l «alias» hash = .ok r → AsAsked «alias» hash r := by
  intro h
  have hasked := h (sampleLookups sampleOtherAlias) _ _ _ (sampleLookups_tip sampleOtherAlias)
    (sampleLookups_resolves sampleOtherAlias)
  exact absurd (hasked.name sampleOtherAlias rfl) (by decide)

end

end Nostr

end Sidestr
