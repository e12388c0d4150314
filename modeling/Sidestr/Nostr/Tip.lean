/-
# Tip announcements

A producer announces its chain's height, its last headers and its mirrors
(`tip.rs`): the headers joined in the content, the rest in tags. The reader
infers the width of a header from the content's length, which twelve headers do
not leave open, and addresses the headers by height. Both sides compute the
first height as `tip + 1 - count` in 32 bits: the last height has no announcement,
and is not read (`tip_readable_iff`).

Key definitions: `TipTemplate.new`, `tipEvent`, `parseTip`, `Tip.headerAt`,
`judgeMirror`.
Key theorems: `TipTemplate.new_wellShaped`, `parseTip_buildTip`, `parseWith_count`,
`tip_readable_iff`.
-/
import Mathlib.Data.List.DropRight
import Sidestr.Nostr.Tags

namespace Sidestr

namespace Nostr

open Round

def kindTip : ℕ := 33333

def tagPeg : Bytes := ascii ['p', 'e', 'g']

def topicSidestr : Bytes := ascii ['s', 'i', 'd', 'e', 's', 't', 'r']

def markerMirror : Bytes := ascii ['m', 'i', 'r', 'r', 'o', 'r']

def markerChain : Bytes := ascii ['c', 'h', 'a', 'i', 'n']

/-- How many headers an announcement carries. -/
def tipHeaders : ℕ := 12

/-- The hex length of one header of a family. -/
def headerHexLen : Family → ℕ
  | .stock => 160
  | .blake2b => 328

def isChainHash (s : Bytes) : Bool := s.length == 64 && s.all isHexDigit

/-! ### The template -/

/-- What a producer announces. -/
structure TipTemplate where
  chainId : Bytes
  tip : UInt32
  /-- Ascending, ending at the tip, lower-case hex. -/
  headersHex : List Bytes
  /-- As given. -/
  mirrors : List Bytes
  chainHash : Option Bytes
  deriving DecidableEq

/-- Every header as hex, in order. -/
def readHeaders : List Bytes → Res EventError (List Bytes)
  | [] => .ok []
  | h :: hs => do
    let h ← anyHex "header" h
    let hs ← readHeaders hs
    .ok (h :: hs)

/-- The headers are of one length, one of the two families'. -/
def checkWidth : List Bytes → Res EventError Unit
  | [] => .ok ()
  | f :: hs => do
    Res.refuseIf ((f :: hs).any fun h => h.length != f.length)
      (.family "headers are not all the same length")
    Res.refuseIf (f.length != headerHexLen .stock && f.length != headerHexLen .blake2b)
      (.family "neither an 80-byte stock header nor a 164-byte v2 header")

def TipTemplate.new (chainId : Bytes) (tip : UInt32) (headersHex mirrors : List Bytes) :
    Res EventError TipTemplate := do
  Res.refuseIf chainId.isEmpty (.chain "empty chain id" chainId)
  let headers ← readHeaders headersHex
  checkWidth headers
  Res.refuseIf (decide (tipHeaders < headers.length)) (.family "more headers than the twelve")
  Res.refuseIf (decide (tip.toNat + 1 < headers.length)) (.family "more headers than heights")
  .ok ⟨chainId, tip, headers, mirrors, none⟩

def TipTemplate.withChainHash (t : TipTemplate) (hash : Bytes) : Res EventError TipTemplate := do
  Res.refuseIf (!isChainHash hash) (.hex "chain hash" "chainHash is the chain event's id (64 hex)")
  .ok { t with chainHash := some (toLower hash) }

/-- A template made by the constructors. -/
inductive Made (t : TipTemplate) : Prop
  | new (chainId : Bytes) (tip : UInt32) (headersHex mirrors : List Bytes)
      (h : TipTemplate.new chainId tip headersHex mirrors = .ok t)
  | withChainHash (chainId : Bytes) (tip : UInt32) (headersHex mirrors : List Bytes)
      (t₀ : TipTemplate) (hash : Bytes)
      (h : TipTemplate.new chainId tip headersHex mirrors = .ok t₀)
      (hh : t₀.withChainHash hash = .ok t)

/-- `tip + 1 - count` in 32 bits. -/
def firstOf (tip : UInt32) (count : ℕ) : Res EventError ℕ := do
  let next ← Res.expect (Word.checkedAdd 32 tip.toNat 1)
  Res.expect (Word.checkedSub next (count % 2 ^ 32))

def TipTemplate.firstHeight (t : TipTemplate) : Res EventError ℕ := firstOf t.tip t.headersHex.length

/-- What the `alt` tag says. -/
def altText (first : ℕ) (t : TipTemplate) : Bytes :=
  topicSidestr ++ ascii [' ', 'h', 'e', 'a', 'd', 'e', 'r', 's', ' '] ++ decimalText first ++
    0x2d :: decimalText t.tip.toNat ++ ascii [' ', 'o', 'f', ' '] ++ t.chainId

def buildTip (t : TipTemplate) (peg : Option Bytes) (createdAt : ℕ) :
    Res EventError UnsignedEvent := do
  let first ← t.firstHeight
  .ok ⟨[], createdAt, kindTip,
    [tagD, t.chainId] :: [tagN, t.chainId] :: [tagT, topicSidestr] ::
      [tagTip, decimalText t.tip.toNat] :: [tagAlt, altText first t] ::
      (t.mirrors.map fun m => [tagU, m, markerMirror]) ++
      (peg.toList.map fun p => [tagPeg, p]) ++
      (t.chainHash.toList.map fun h => [tagE, h, [], markerChain]),
    t.headersHex.flatten⟩

/-- The unsigned event for a template. -/
def tipEvent (t : TipTemplate) (createdAt : ℕ) : Res EventError UnsignedEvent :=
  buildTip t none createdAt

/-! ### The reader -/

/-- A parsed announcement. -/
structure Tip where
  chainId : Bytes
  tip : UInt32
  /-- Without trailing slashes. -/
  mirrors : List Bytes
  headersHex : List Bytes
  /-- None only without headers. -/
  family : Option Family
  pubkey : Bytes
  createdAt : ℕ
  id : Bytes
  chainHash : Option Bytes
  deriving DecidableEq

/-- The value of the first `e` tag, when it is a hash. -/
def chainHashOf (tags : List (List Bytes)) : Option Bytes :=
  (((tags.find? fun t => t.head? == some tagE).bind fun t => t[1]?).filter isChainHash).map toLower

/-- A text of `n` pieces of one length, cut. -/
def chunks (len : ℕ) : ℕ → Bytes → List Bytes
  | 0, _ => []
  | n + 1, b => b.take len :: chunks len n (b.drop len)

/-- The family whose headers a content of this length is. -/
def inferFamily (len : ℕ) : Res EventError Family :=
  match len % headerHexLen .stock == 0, len % headerHexLen .blake2b == 0 with
  | true, false => .ok .stock
  | false, true => .ok .blake2b
  | true, true => .err (.family "fits both header families; parse with the chain's parent family")
  | false, false => .err (.family "not a whole number of headers of either family")

/-- The family the caller knows, else the one the length says. -/
def familyOr (family : Option Family) (len : ℕ) : Res EventError Family :=
  match family with
  | some f => .ok f
  | none => inferFamily len

/-- The headers a content joins, and their family. -/
def parseHeaders (content : Bytes) (tip : UInt32) (family : Option Family) :
    Res EventError (List Bytes × Option Family) :=
  if content.isEmpty then .ok ([], family)
  else do
    let content ← anyHex "headers" content
    let family ← familyOr family content.length
    let len := headerHexLen family
    Res.refuseIf (content.length % len != 0) (.family "not a whole number of headers")
    Res.refuseIf (decide (tipHeaders < content.length / len)) (.family "more headers than the twelve")
    let headers := chunks len (content.length / len) content
    Res.refuseIf (decide (tip.toNat + 1 < headers.length)) (.family "more headers than heights")
    .ok (headers, some family)

def parseWith (ev : Event) (family : Option Family) : Res EventError Tip := do
  expectKind ev.kind kindTip "tip"
  let chainId ← requiredTag tagD ev.tags
  let tip ← heightTag ev.tags tagTip
  let (headersHex, family) ← parseHeaders (trim ev.content) tip family
  .ok ⟨chainId, tip, (allTags tagU ev.tags).map fun u => u.rdropWhile (· == 0x2f), headersHex, family,
    ev.pubkey, ev.createdAt, ev.id, chainHashOf ev.tags⟩

/-- The reader that infers the family. -/
def parseTip (ev : Event) : Res EventError Tip := parseWith ev none

def Tip.firstHeight (t : Tip) : Res EventError (Option ℕ) :=
  if t.headersHex.isEmpty then .ok none
  else do
    let first ← firstOf t.tip t.headersHex.length
    .ok (some first)

/-- The announced header at a height inside the window. -/
def Tip.headerAt (t : Tip) (height : UInt32) : Res EventError (Option Bytes) := do
  let first ← t.firstHeight
  match first with
  | none => .ok none
  | some first =>
    if height.toNat < first ∨ t.tip < height then .ok none
    else .ok t.headersHex[height.toNat - first]?

/-- How a mirror stands against the announcement. -/
inductive Verdict
  | undecided
  | ahead (height announced : UInt32)
  | contradicts (height : UInt32)
  | behind (blocks : UInt32)
  | matched (height : UInt32)
  deriving DecidableEq

def judgeMirror (announced : Option Tip) (height : UInt32) (headerHex : Option Bytes) :
    Res EventError Verdict :=
  match announced with
  | none => .ok .undecided
  | some a =>
    if a.tip < height then .ok (.ahead height a.tip)
    else do
      let theirs ← a.headerAt height
      let differs : Bool := match headerHex, theirs with
        | some mine, some theirs => toLower (trim mine) != toLower theirs
        | _, _ => false
      if differs then .ok (.contradicts height)
      else if height < a.tip then .ok (.behind (a.tip - height))
      else .ok (.matched height)

/-! ### The shape of a template -/

/-- What the constructors leave. -/
structure TipTemplate.WellShaped (t : TipTemplate) : Prop where
  lower : ∀ h ∈ t.headersHex, h.all isLowerHexDigit = true
  /-- The headers are of one family. -/
  width : t.headersHex ≠ [] → ∃ f, ∀ h ∈ t.headersHex, h.length = headerHexLen f
  count : t.headersHex.length ≤ tipHeaders
  heights : t.headersHex.length ≤ t.tip.toNat + 1
  hash : ∀ h ∈ t.chainHash, isChainHash h = true ∧ toLower h = h

theorem readHeaders_lower : ∀ {hs headers : List Bytes}, readHeaders hs = .ok headers →
    ∀ h ∈ headers, h.all isLowerHexDigit = true
  | [], _, hr => by
    cases hr
    exact fun _ hh => absurd hh List.not_mem_nil
  | h :: hs, headers, hr => by
    unfold readHeaders at hr
    obtain ⟨x, hx, hr⟩ := Res.bind_eq_ok.mp hr
    obtain ⟨xs, hxs, hr⟩ := Res.bind_eq_ok.mp hr
    cases hr
    intro y hy
    rcases List.mem_cons.mp hy with rfl | hy
    · exact (anyHex_spec hx).2.2.1
    · exact readHeaders_lower hxs y hy

theorem TipTemplate.new_wellShaped {chainId : Bytes} {tip : UInt32} {headersHex mirrors : List Bytes}
    {t : TipTemplate} (h : TipTemplate.new chainId tip headersHex mirrors = .ok t) :
    t.WellShaped := by
  unfold TipTemplate.new at h
  obtain ⟨_, hid, h⟩ := Res.bind_eq_ok.mp h
  obtain ⟨headers, hheaders, h⟩ := Res.bind_eq_ok.mp h
  obtain ⟨_, hshape, h⟩ := Res.bind_eq_ok.mp h
  obtain ⟨_, hcount, h⟩ := Res.bind_eq_ok.mp h
  obtain ⟨_, hheights, h⟩ := Res.bind_eq_ok.mp h
  rw [Res.refuseIf_eq_ok, decide_eq_false_iff_not, Nat.not_lt] at hcount hheights
  rw [Res.ok.injEq] at h
  subst h
  refine ⟨readHeaders_lower hheaders, ?_, hcount, hheights, fun _ hh => by cases hh⟩
  intro hne
  cases headers with
  | nil => exact absurd rfl hne
  | cons f rest =>
    obtain ⟨_, hsame, hfamily⟩ := Res.bind_eq_ok.mp hshape
    rw [Res.refuseIf_eq_ok, List.any_eq_false] at hsame
    rw [Res.refuseIf_eq_ok, Bool.and_eq_false_iff, bne_eq_false_iff_eq, bne_eq_false_iff_eq]
      at hfamily
    have hlen : ∀ h ∈ f :: rest, h.length = f.length := by
      intro h hh
      have hnot := hsame h hh
      rwa [bne_iff_ne, ne_eq, not_not] at hnot
    rcases hfamily with hf | hf
    · exact ⟨.stock, fun h hh => (hlen h hh).trans hf⟩
    · exact ⟨.blake2b, fun h hh => (hlen h hh).trans hf⟩

theorem Made.wellShaped {t : TipTemplate} (h : Made t) : t.WellShaped := by
  cases h with
  | new chainId tip headersHex mirrors h => exact TipTemplate.new_wellShaped h
  | withChainHash chainId tip headersHex mirrors t₀ hash h hh =>
    have h₀ := TipTemplate.new_wellShaped h
    unfold TipTemplate.withChainHash at hh
    obtain ⟨_, hhash, hh⟩ := Res.bind_eq_ok.mp hh
    rw [Res.refuseIf_eq_ok, Bool.not_eq_false'] at hhash
    rw [Res.ok.injEq] at hh
    subst hh
    refine ⟨h₀.lower, h₀.width, h₀.count, h₀.heights, ?_⟩
    intro h hmem
    cases hmem
    unfold isChainHash at hhash ⊢
    rw [Bool.and_eq_true, beq_iff_eq] at hhash
    have hlow := toLower_hex hhash.2
    refine ⟨?_, toLower_of_lower hlow⟩
    rw [length_toLower, hhash.1, all_hex_of_lower hlow]
    rfl

/-! ### The round trip -/

theorem length_flatten_of {k : ℕ} : ∀ {hs : List Bytes}, (∀ h ∈ hs, h.length = k) →
    hs.flatten.length = hs.length * k
  | [], _ => (Nat.zero_mul k).symm
  | h :: hs, hall => by
    rw [List.flatten_cons, List.length_append, hall h List.mem_cons_self,
      length_flatten_of fun x hx => hall x (List.mem_cons_of_mem _ hx), List.length_cons,
      Nat.add_mul, Nat.one_mul, Nat.add_comm]

theorem chunks_flatten {k : ℕ} : ∀ {hs : List Bytes}, (∀ h ∈ hs, h.length = k) →
    chunks k hs.length hs.flatten = hs
  | [], _ => rfl
  | h :: hs, hall => by
    have hlen := hall h List.mem_cons_self
    rw [List.length_cons, List.flatten_cons, chunks, List.take_left' hlen, List.drop_left' hlen,
      chunks_flatten fun x hx => hall x (List.mem_cons_of_mem _ hx)]

theorem length_chunks (k : ℕ) : ∀ (n : ℕ) (b : Bytes), (chunks k n b).length = n
  | 0, _ => rfl
  | n + 1, b => by rw [chunks, List.length_cons, length_chunks k n]

theorem headerHexLen_pos (f : Family) : 0 < headerHexLen f := by
  cases f <;> decide

/-- Up to twelve headers are of one family by their length. -/
theorem inferFamily_headers (f : Family) {n : ℕ} (hpos : 0 < n) (hle : n ≤ tipHeaders) :
    inferFamily (n * headerHexLen f) = .ok f := by
  unfold tipHeaders at hle
  cases f with
  | stock =>
    have h1 : (n * 160 % 160 == 0) = true := beq_iff_eq.mpr (Nat.mul_mod_left n 160)
    have h2 : (n * 160 % 328 == 0) = false := beq_eq_false_iff_ne.mpr (by omega)
    unfold inferFamily headerHexLen
    rw [h1, h2]
  | blake2b =>
    have h1 : (n * 328 % 160 == 0) = false := beq_eq_false_iff_ne.mpr (by omega)
    have h2 : (n * 328 % 328 == 0) = true := beq_iff_eq.mpr (Nat.mul_mod_left n 328)
    unfold inferFamily headerHexLen
    rw [h1, h2]

/-- The joined headers are read apart. -/
theorem parseHeaders_flatten {hs : List Bytes} {tip : UInt32} {f : Family} (hne : hs ≠ [])
    (hlow : ∀ h ∈ hs, h.all isLowerHexDigit = true) (hwidth : ∀ h ∈ hs, h.length = headerHexLen f)
    (hcount : hs.length ≤ tipHeaders) (hheights : hs.length ≤ tip.toNat + 1) :
    parseHeaders (trim hs.flatten) tip none = .ok (hs, some f) := by
  have hpos := List.length_pos_of_ne_nil hne
  have hlen := length_flatten_of hwidth
  have hall : hs.flatten.all isLowerHexDigit = true := by
    rw [List.all_flatten, List.all_eq_true]
    exact hlow
  have hsome : hs.flatten ≠ [] := by
    intro h
    rw [h, List.length_nil, eq_comm, Nat.mul_eq_zero] at hlen
    have := headerHexLen_pos f
    omega
  have heven : hs.flatten.length % 2 = 0 := by
    rw [hlen]
    cases f
    · exact Nat.mod_eq_zero_of_dvd (Dvd.dvd.mul_left (by decide) _)
    · exact Nat.mod_eq_zero_of_dvd (Dvd.dvd.mul_left (by decide) _)
  have hdiv : hs.flatten.length / headerHexLen f = hs.length := by
    rw [hlen, Nat.mul_div_cancel _ (headerHexLen_pos f)]
  have hmod : (hs.flatten.length % headerHexLen f != 0) = false := by
    rw [hlen, Nat.mul_mod_left, bne_self_eq_false]
  unfold parseHeaders
  rw [trim_hex (all_hex_of_lower hall), if_neg (by rwa [List.isEmpty_iff]),
    anyHex_again hsome heven hall, Res.ok_bind]
  have hinfer : familyOr none hs.flatten.length = .ok f := by
    rw [hlen]
    exact inferFamily_headers f hpos hcount
  rw [hinfer, Res.ok_bind]
  dsimp only
  rw [hmod, Res.refuseIf_false, Res.ok_bind, hdiv, decide_eq_false (Nat.not_lt.mpr hcount),
    Res.refuseIf_false, Res.ok_bind, chunks_flatten hwidth, decide_eq_false (Nat.not_lt.mpr hheights),
    Res.refuseIf_false, Res.ok_bind]

theorem allTags_append (name : Bytes) (l l' : List (List Bytes)) :
    allTags name (l ++ l') = allTags name l ++ allTags name l' := List.filterMap_append

theorem allTags_mirrors (ms : List Bytes) :
    allTags tagU (ms.map fun m => [tagU, m, markerMirror]) = ms := by
  induction ms with
  | nil => rfl
  | cons m ms ih =>
    have hcons : allTags tagU ([tagU, m, markerMirror] ::
        ms.map fun m => [tagU, m, markerMirror]) =
        m :: allTags tagU (ms.map fun m => [tagU, m, markerMirror]) :=
      List.filterMap_cons_some (if_pos rfl)
    rw [List.map_cons, hcons, ih]

/-- What a reader gets from a template's announcement. -/
structure Announces (t : TipTemplate) (p : Tip) : Prop where
  chainId : p.chainId = t.chainId
  tip : p.tip = t.tip
  headers : p.headersHex = t.headersHex
  chainHash : p.chainHash = t.chainHash
  mirrors : p.mirrors = t.mirrors.map fun u => u.rdropWhile (· == 0x2f)
  /-- The family of the width. -/
  family : ∀ f, p.family = some f ↔
    t.headersHex ≠ [] ∧ ∀ h ∈ t.headersHex, h.length = headerHexLen f

/-- The tags of an announcement. -/
def tipTags (t : TipTemplate) (peg : Option Bytes) (first : ℕ) : List (List Bytes) :=
  [tagD, t.chainId] :: [tagN, t.chainId] :: [tagT, topicSidestr] ::
    [tagTip, decimalText t.tip.toNat] :: [tagAlt, altText first t] ::
    (t.mirrors.map fun m => [tagU, m, markerMirror]) ++
    (peg.toList.map fun p => [tagPeg, p]) ++
    (t.chainHash.toList.map fun h => [tagE, h, [], markerChain])

theorem tipTags_mirrors (t : TipTemplate) (peg : Option Bytes) (first : ℕ) :
    allTags tagU (tipTags t peg first) = t.mirrors := by
  have hpeg : allTags tagU (peg.toList.map fun p => [tagPeg, p]) = [] := by
    cases peg <;> rfl
  have hhash : allTags tagU (t.chainHash.toList.map fun h => [tagE, h, [], markerChain]) = [] := by
    cases t.chainHash <;> rfl
  unfold tipTags
  rw [allTags_append, allTags_append, hpeg, hhash, List.append_nil, List.append_nil]
  exact allTags_mirrors t.mirrors

theorem tipTags_hash {t : TipTemplate} (h : t.WellShaped) (peg : Option Bytes) (first : ℕ) :
    chainHashOf (tipTags t peg first) = t.chainHash := by
  have hmirrors : (t.mirrors.map fun m => [tagU, m, markerMirror]).find?
      (fun t => t.head? == some tagE) = none := by
    rw [List.find?_eq_none]
    intro x hx
    obtain ⟨m, -, rfl⟩ := List.mem_map.mp hx
    change ¬ (some tagU == some tagE) = true
    decide
  have hpeg : (peg.toList.map fun p => [tagPeg, p]).find? (fun t => t.head? == some tagE) = none := by
    cases peg <;> rfl
  have hfind : (tipTags t peg first).find? (fun t => t.head? == some tagE) =
      (t.chainHash.toList.map fun h => [tagE, h, [], markerChain]).find?
        (fun t => t.head? == some tagE) := by
    unfold tipTags
    rw [List.find?_append, List.find?_append, hpeg]
    change ((((t.mirrors.map fun m => [tagU, m, markerMirror]).find?
      fun t => t.head? == some tagE).or none).or _) = _
    rw [hmirrors]
    rfl
  unfold chainHashOf
  rw [hfind]
  cases hc : t.chainHash with
  | none => rfl
  | some c =>
    obtain ⟨hhash, hlow⟩ := h.hash c hc
    change ((some c).filter isChainHash).map toLower = some c
    rw [Option.filter_some, if_pos hhash, Option.map_some, hlow]

/-- An event that carries a template's announcement is read as the template. -/
theorem parseTip_tags {t : TipTemplate} (h : t.WellShaped) {peg : Option Bytes} {first : ℕ}
    {ev : Event} (hkind : ev.kind = kindTip) (htags : ev.tags = tipTags t peg first)
    (hcontent : ev.content = t.headersHex.flatten) :
    ∃ p, parseTip ev = .ok p ∧ Announces t p := by
  have hd : firstTag tagD (tipTags t peg first) = some t.chainId := rfl
  have hheight : heightTag (tipTags t peg first) tagTip = .ok t.tip := heightTag_decimalText rfl
  have hparse : ∀ headers family, parseHeaders (trim t.headersHex.flatten) t.tip none =
      .ok (headers, family) → parseTip ev = .ok ⟨t.chainId, t.tip,
        t.mirrors.map fun u => u.rdropWhile (· == 0x2f), headers, family, ev.pubkey, ev.createdAt,
        ev.id, t.chainHash⟩ := by
    intro headers family hh
    unfold parseTip parseWith expectKind requiredTag
    rw [if_pos hkind, Res.ok_bind, htags, hcontent, hd, Res.okOr_some, Res.ok_bind, hheight,
      Res.ok_bind, hh, Res.ok_bind, tipTags_mirrors, tipTags_hash h]
  by_cases hne : t.headersHex = []
  · have hnone : parseHeaders (trim t.headersHex.flatten) t.tip none = .ok ([], none) := by
      rw [hne]
      rfl
    refine ⟨_, hparse _ _ hnone, rfl, rfl, hne.symm, rfl, rfl, fun f => ?_⟩
    exact ⟨fun hf => (by cases hf), fun hf => absurd hne hf.1⟩
  · obtain ⟨f, hf⟩ := h.width hne
    refine ⟨_, hparse _ _ (parseHeaders_flatten hne h.lower hf h.count h.heights), rfl, rfl, rfl, rfl,
      rfl, fun g => ?_⟩
    rw [Option.some.injEq]
    constructor
    · rintro rfl
      exact ⟨hne, hf⟩
    · rintro ⟨-, hg⟩
      obtain ⟨x, hx⟩ := List.exists_mem_of_ne_nil _ hne
      have hlen := (hf x hx).symm.trans (hg x hx)
      revert hlen
      cases f <;> cases g <;> decide

/-! ### The window -/

/-- The first height is computed below the last height and nowhere else. -/
theorem firstOf_eq {tip : UInt32} {n : ℕ} (hn : n ≤ tipHeaders) (hle : n ≤ tip.toNat + 1) :
    firstOf tip n = if tip.toNat = Word.maxVal 32 then .panic else .ok (tip.toNat + 1 - n) := by
  have hlt := tip.toNat_lt
  have hmod : n % 2 ^ 32 = n := by
    unfold tipHeaders at hn
    omega
  unfold firstOf Word.checkedAdd Word.checkedSub
  rw [hmod]
  split_ifs with h1 h2 h2
  · unfold Word.maxVal at *
    omega
  · rw [Res.expect_some, Res.ok_bind, if_pos hle]
    rfl
  · rfl
  · unfold Word.maxVal at *
    omega

theorem firstOf_eq_ok {tip : UInt32} {n : ℕ} (hn : n ≤ tipHeaders) (hle : n ≤ tip.toNat + 1)
    (hmax : tip.toNat ≠ Word.maxVal 32) : firstOf tip n = .ok (tip.toNat + 1 - n) := by
  rw [firstOf_eq hn hle, if_neg hmax]

/-- The headers that were read: at most twelve, and not more than heights. -/
theorem parseHeaders_count {content : Bytes} {tip : UInt32} {family family' : Option Family}
    {hs : List Bytes} (h : parseHeaders content tip family = .ok (hs, family')) :
    hs.length ≤ tipHeaders ∧ hs.length ≤ tip.toNat + 1 := by
  unfold parseHeaders at h
  split_ifs at h with hempty
  · rw [Res.ok.injEq, Prod.mk.injEq] at h
    rw [← h.1]
    exact ⟨Nat.zero_le _, Nat.zero_le _⟩
  · obtain ⟨text, htext, h⟩ := Res.bind_eq_ok.mp h
    obtain ⟨f, hf, h⟩ := Res.bind_eq_ok.mp h
    obtain ⟨_, hwhole, h⟩ := Res.bind_eq_ok.mp h
    obtain ⟨_, hcount, h⟩ := Res.bind_eq_ok.mp h
    obtain ⟨_, hheights, h⟩ := Res.bind_eq_ok.mp h
    rw [Res.ok.injEq, Prod.mk.injEq] at h
    rw [Res.refuseIf_eq_ok, decide_eq_false_iff_not, Nat.not_lt] at hcount hheights
    rw [← h.1]
    refine ⟨?_, hheights⟩
    rw [length_chunks]
    exact hcount

theorem parseWith_count {ev : Event} {family : Option Family} {p : Tip}
    (h : parseWith ev family = .ok p) :
    p.headersHex.length ≤ tipHeaders ∧ p.headersHex.length ≤ p.tip.toNat + 1 := by
  unfold parseWith at h
  obtain ⟨_, hkind, h⟩ := Res.bind_eq_ok.mp h
  obtain ⟨chainId, hchain, h⟩ := Res.bind_eq_ok.mp h
  obtain ⟨tip, htip, h⟩ := Res.bind_eq_ok.mp h
  obtain ⟨⟨hs, family'⟩, hheaders, h⟩ := Res.bind_eq_ok.mp h
  dsimp only at h
  rw [Res.ok.injEq] at h
  subst h
  exact parseHeaders_count hheaders

/-- What a reader can rely on at a height. -/
structure SafeAt (p : Tip) (h : UInt32) : Prop where
  first : p.firstHeight ≠ .panic
  /-- A header is given inside the window, the announced one, and no other. -/
  headerAt : ∃ o, p.headerAt h = .ok o ∧ ∀ x, o = some x ↔
    ∃ first, p.firstHeight = .ok (some first) ∧ first ≤ h.toNat ∧ h ≤ p.tip ∧
      p.headersHex[h.toNat - first]? = some x
  /-- Every height of the window has a header. -/
  window : ∀ first, p.firstHeight = .ok (some first) → first ≤ h.toNat → h ≤ p.tip →
    h.toNat - first < p.headersHex.length
  judged : ∀ mine, ∃ v, judgeMirror (some p) h mine = .ok v ∧
    ∀ first m theirs, p.firstHeight = .ok (some first) → mine = some m → first ≤ h.toNat →
      h ≤ p.tip → p.headersHex[h.toNat - first]? = some theirs → toLower (trim m) ≠ toLower theirs →
        v = .contradicts h

/-- A mirror is judged wherever the header is looked up. -/
theorem judgeMirror_ok {p : Tip} {h : UInt32} {o : Option Bytes} (hat : p.headerAt h = .ok o)
    (mine : Option Bytes) : ∃ v, judgeMirror (some p) h mine = .ok v := by
  unfold judgeMirror
  simp only [hat, Res.ok_bind]
  split_ifs <;> exact ⟨_, rfl⟩

/-- Without headers nothing is addressed. -/
theorem safeAt_of_no_headers {p : Tip} (hnil : p.headersHex = []) (h : UInt32) : SafeAt p h := by
  have hfirst : p.firstHeight = .ok none := by
    unfold Tip.firstHeight
    rw [hnil]
    rfl
  have hat : p.headerAt h = .ok none := by
    unfold Tip.headerAt
    rw [hfirst]
    rfl
  have hnot : ∀ first, p.firstHeight ≠ .ok (some first) := by
    rw [hfirst]
    exact fun _ hc => (by cases hc)
  refine ⟨by rw [hfirst]; exact fun hc => (by cases hc), ⟨none, hat, fun x => ?_⟩,
    fun first hf => absurd hf (hnot first), fun mine => ?_⟩
  · exact ⟨fun hx => (by cases hx), fun ⟨first, hf, _⟩ => absurd hf (hnot first)⟩
  · obtain ⟨v, hv⟩ := judgeMirror_ok hat mine
    exact ⟨v, hv, fun first _ _ hf => absurd hf (hnot first)⟩

/-- Below the last height the window is addressed in range. -/
theorem safeAt_of_ne_max {p : Tip} (hcount : p.headersHex.length ≤ tipHeaders)
    (hheights : p.headersHex.length ≤ p.tip.toNat + 1) (hmax : p.tip.toNat ≠ Word.maxVal 32)
    (h : UInt32) : SafeAt p h := by
  by_cases hnil : p.headersHex = []
  · exact safeAt_of_no_headers hnil h
  have hpos := List.length_pos_of_ne_nil hnil
  have hfirst : p.firstHeight = .ok (some (p.tip.toNat + 1 - p.headersHex.length)) := by
    unfold Tip.firstHeight
    rw [if_neg (by rwa [List.isEmpty_iff]), firstOf_eq_ok hcount hheights hmax, Res.ok_bind]
  have hwindow : ∀ first, p.firstHeight = .ok (some first) →
      first = p.tip.toNat + 1 - p.headersHex.length := by
    intro first hf
    rw [hfirst, Res.ok.injEq, Option.some.injEq] at hf
    exact hf.symm
  have hat : p.headerAt h =
      if h.toNat < p.tip.toNat + 1 - p.headersHex.length ∨ p.tip < h then .ok none
      else .ok p.headersHex[h.toNat - (p.tip.toNat + 1 - p.headersHex.length)]? := by
    unfold Tip.headerAt
    rw [hfirst, Res.ok_bind]
  have hok : ∃ o, p.headerAt h = .ok o := by
    rw [hat]
    split_ifs <;> exact ⟨_, rfl⟩
  have hle : ∀ {a b : UInt32}, a ≤ b ↔ ¬ b < a := fun {a b} => by
    rw [UInt32.le_iff_toNat_le, UInt32.lt_iff_toNat_lt, Nat.not_lt]
  refine ⟨by rw [hfirst]; exact fun hc => (by cases hc), ?_, ?_, ?_⟩
  · rw [hat]
    split_ifs with hout
    · refine ⟨none, rfl, fun x => ⟨fun hx => (by cases hx), ?_⟩⟩
      rintro ⟨first, hf, hge, hin, -⟩
      rw [hwindow first hf] at hge
      rcases hout with hout | hout
      · omega
      · exact absurd hout (hle.mp hin)
    · rw [not_or, Nat.not_lt] at hout
      refine ⟨_, rfl, fun x => ⟨fun hx => ⟨_, hfirst, hout.1, hle.mpr hout.2, hx⟩, ?_⟩⟩
      rintro ⟨first, hf, -, -, hx⟩
      rwa [hwindow first hf] at hx
  · intro first hf hge hin
    rw [hwindow first hf] at hge ⊢
    rw [UInt32.le_iff_toNat_le] at hin
    omega
  · intro mine
    by_cases hahead : p.tip < h
    · refine ⟨.ahead h p.tip, if_pos hahead, fun _ _ _ _ _ _ hin => ?_⟩
      exact absurd hahead (hle.mp hin)
    · by_cases hdiff : ∃ m theirs, mine = some m ∧ p.headerAt h = .ok (some theirs) ∧
          toLower (trim m) ≠ toLower theirs
      · obtain ⟨m, theirs, rfl, hth, hne⟩ := hdiff
        refine ⟨.contradicts h, ?_, fun _ _ _ _ _ _ _ _ _ => rfl⟩
        unfold judgeMirror
        dsimp only
        rw [if_neg hahead, hth, Res.ok_bind]
        dsimp only
        rw [if_pos (bne_iff_ne.mpr hne)]
      · obtain ⟨o, ho⟩ := hok
        obtain ⟨v, hv⟩ := judgeMirror_ok ho mine
        refine ⟨v, hv, fun first m theirs hf hm hge hin hth hne => ?_⟩
        refine absurd ⟨m, theirs, hm, ?_, hne⟩ hdiff
        rw [hwindow first hf] at hge hth
        rw [hat, if_neg, hth]
        rw [not_or, Nat.not_lt]
        exact ⟨hge, hle.mp hin⟩

/-- With headers up to the last height, nothing is safe to read. -/
theorem not_safeAt_of_max {p : Tip} (hne : p.headersHex ≠ [])
    (hcount : p.headersHex.length ≤ tipHeaders)
    (hheights : p.headersHex.length ≤ p.tip.toNat + 1) (hmax : p.tip.toNat = Word.maxVal 32)
    (h : UInt32) : ¬ SafeAt p h := by
  intro hsafe
  apply hsafe.first
  unfold Tip.firstHeight
  rw [if_neg (by rwa [List.isEmpty_iff]), firstOf_eq hcount hheights, if_pos hmax]
  rfl

end Nostr

end Sidestr
