/-
# Tags and hex

The grammar the sidestr events share (`tags.rs`, `error.rs`): hex in either
letter case with spaces around it, kept in lower case; a parent outpoint as
`<txid>:<vout>`; a height as decimal digits. Texts that are hex or digits are
not changed by trimming, and what is in lower case already stays.

Key definitions: `anyHex`, `Outpoint.parse`, `heightTag`, `allTags`.
Key theorems: `trim_plain`, `anyHex_spec`, `anyHex_again`, `Outpoint.parse_text`,
`heightTag_decimalText`.
-/
import Sidestr.Core.PegTweak
import Sidestr.Round.Event

namespace Sidestr

namespace Nostr

open Round

/-- Why an event is refused. -/
inductive EventError
  | kind (expected found : ℕ) (what : String)
  | missingTag (name : Bytes)
  | tag (name : Bytes) (reason : String)
  | hex (what : String) (reason : String)
  | chain (reason : String) (named : Bytes)
  | content (reason : String)
  | family (reason : String)
  /-- A tag and the content say different things. -/
  | disagree (tag tagValue contentValue : Bytes)
  deriving DecidableEq

def tagTip : Bytes := ascii ['t', 'i', 'p']

def tagN : Bytes := ascii ['n']

def tagT : Bytes := ascii ['t']

def tagU : Bytes := ascii ['u']

def tagAlt : Bytes := ascii ['a', 'l', 't']

def expectKind (found expected : ℕ) (what : String) : Res EventError Unit :=
  if found = expected then .ok () else .err (.kind expected found what)

/-- The first value of a required tag. -/
def requiredTag (name : Bytes) (tags : List (List Bytes)) : Res EventError Bytes :=
  Res.okOr (.missingTag name) (firstTag name tags)

/-- Every value carried by tags of a name, in order. -/
def allTags (name : Bytes) (tags : List (List Bytes)) : List Bytes :=
  tags.filterMap fun t =>
    match t with
    | n :: value :: _ => if n = name then some value else none
    | _ => none

/-- Lower-case hex of any even, non-zero length. -/
def anyHex (what : String) (s : Bytes) : Res EventError Bytes :=
  let s := trim s
  if s.isEmpty || s.length % 2 != 0 then
    .err (.hex what "not a whole number of bytes")
  else if !s.all isHexDigit then .err (.hex what "not hex")
  else .ok (toLower s)

/-- A parent outpoint as the tags write it. -/
structure Outpoint where
  /-- Display order. -/
  txid : Bytes
  vout : UInt32
  deriving DecidableEq

def Outpoint.text (o : Outpoint) : Bytes := o.txid ++ 0x3a :: decimalText o.vout.toNat

def Outpoint.parse (s : Bytes) : Res EventError Outpoint := do
  let (txid, vout) ← Res.okOr (.tag tagD "not <txid>:<vout>") (splitOnce 0x3a s)
  let txid ← Res.okOr (.tag tagD "the txid is not 64 hex characters") (hexOf txid 32)
  Res.refuseIf (vout.isEmpty || !vout.all isDigit) (.tag tagD "the vout is not a decimal")
  Res.refuseIf (decide (Word.maxVal 32 < decimal vout)) (.tag tagD "the vout is too large")
  .ok ⟨txid, UInt32.ofNat (decimal vout)⟩

/-- A decimal height tag. -/
def heightTag (tags : List (List Bytes)) (name : Bytes) : Res EventError UInt32 := do
  let v ← requiredTag name tags
  Res.refuseIf (v.isEmpty || !v.all isDigit) (.tag name "not a height")
  Res.refuseIf (decide (Word.maxVal 32 < decimal v)) (.tag name "too large")
  .ok (UInt32.ofNat (decimal v))

/-! ### Texts that trimming leaves -/

/-- A graphic ASCII byte. -/
def IsGraphic (b : UInt8) : Prop := 0x21 ≤ b.toNat ∧ b.toNat ≤ 0x7e

theorem IsGraphic.ne_space {b : UInt8} (h : IsGraphic b) :
    ¬ (b = 0x20 ∨ (0x09 ≤ b.toNat ∧ b.toNat ≤ 0x0d)) := by
  rintro (rfl | hc)
  · exact absurd h.1 (by decide)
  · have := h.1
    omega

theorem IsGraphic.ne_wide {b : UInt8} (h : IsGraphic b) {c : UInt8} (hc : 0x7f < c.toNat) :
    b ≠ c := by
  rintro rfl
  have := h.2
  omega

theorem trimStart_graphic {s : Bytes} (h : ∀ b ∈ s, IsGraphic b) : trimStart s = s := by
  unfold trimStart
  split
  · rename_i a b c l
    have ha := h a List.mem_cons_self
    rw [if_neg ha.ne_space, if_neg, if_neg]
    · rintro (⟨hc, -⟩ | ⟨hc, -⟩ | ⟨hc, -⟩ | ⟨hc, -⟩)
      all_goals exact ha.ne_wide (by decide) hc
    · rintro ⟨hc, -⟩
      exact ha.ne_wide (by decide) hc
  · rename_i a b
    have ha := h a List.mem_cons_self
    rw [if_neg ha.ne_space, if_neg]
    rintro ⟨hc, -⟩
    exact ha.ne_wide (by decide) hc
  · rename_i a
    rw [if_neg (h a List.mem_cons_self).ne_space]
  · rfl

theorem trimEndReversed_graphic {s : Bytes} (h : ∀ b ∈ s, IsGraphic b) :
    trimEndReversed s = s := by
  unfold trimEndReversed
  split
  · rename_i c b a l
    have hc := h c List.mem_cons_self
    have hb := h b (List.mem_cons_of_mem _ List.mem_cons_self)
    have ha := h a (List.mem_cons_of_mem _ (List.mem_cons_of_mem _ List.mem_cons_self))
    rw [if_neg hc.ne_space, if_neg, if_neg]
    · rintro (⟨hw, -⟩ | ⟨hw, -⟩ | ⟨hw, -⟩ | ⟨hw, -⟩)
      all_goals exact ha.ne_wide (by decide) hw
    · rintro ⟨hw, -⟩
      exact hb.ne_wide (by decide) hw
  · rename_i b a
    have hb := h b List.mem_cons_self
    have ha := h a (List.mem_cons_of_mem _ List.mem_cons_self)
    rw [if_neg hb.ne_space, if_neg]
    rintro ⟨hw, -⟩
    exact ha.ne_wide (by decide) hw
  · rename_i a
    rw [if_neg (h a List.mem_cons_self).ne_space]
  · rfl

/-- A text of graphic ASCII has no space around it. -/
theorem trim_plain {s : Bytes} (h : ∀ b ∈ s, IsGraphic b) : trim s = s := by
  unfold trim
  rw [trimStart_graphic h, trimEndReversed_graphic fun b hb => h b (List.mem_reverse.mp hb),
    List.reverse_reverse]

theorem hexDigit_cases {b : UInt8} (h : isHexDigit b = true) :
    (0x30 ≤ b.toNat ∧ b.toNat ≤ 0x39) ∨ (0x41 ≤ b.toNat ∧ b.toNat ≤ 0x46) ∨
      (0x61 ≤ b.toNat ∧ b.toNat ≤ 0x66) := by
  unfold isHexDigit hexVal at h
  dsimp only at h
  split_ifs at h with h1 h2 h3
  · exact .inl h1
  · exact .inr (.inr h2)
  · exact .inr (.inl h3)
  · cases h

theorem graphic_of_hex {b : UInt8} (h : isHexDigit b = true) : IsGraphic b := by
  unfold IsGraphic
  have := hexDigit_cases h
  omega

theorem trim_hex {s : Bytes} (h : s.all isHexDigit = true) : trim s = s :=
  trim_plain fun b hb => graphic_of_hex (List.all_eq_true.mp h b hb)

theorem isHexDigit_of_lower {b : UInt8} (h : isLowerHexDigit b = true) : isHexDigit b = true :=
  hexVal_isSome h

theorem all_hex_of_lower {s : Bytes} (h : s.all isLowerHexDigit = true) :
    s.all isHexDigit = true :=
  List.all_eq_true.mpr fun b hb => isHexDigit_of_lower (List.all_eq_true.mp h b hb)

/-- A hex digit in lower case is a lower-case hex digit. -/
theorem lowerByte_hex {b : UInt8} (h : isHexDigit b = true) :
    isLowerHexDigit (lowerByte b) = true := by
  have hcases := hexDigit_cases h
  have hlt := b.toNat_lt
  unfold lowerByte
  split_ifs with hup
  · have hval : (UInt8.ofNat (b.toNat + 32)).toNat = b.toNat + 32 := by
      rw [UInt8.toNat_ofNat']
      omega
    unfold isLowerHexDigit
    rw [hval]
    simp only [Bool.or_eq_true, Bool.and_eq_true, decide_eq_true_eq]
    omega
  · unfold isLowerHexDigit
    simp only [Bool.or_eq_true, Bool.and_eq_true, decide_eq_true_eq]
    omega

/-- What is a hex digit in lower case is one. -/
theorem isHexDigit_of_lowerByte {b : UInt8} (h : isLowerHexDigit (lowerByte b) = true) :
    isHexDigit b = true := by
  have hlt := b.toNat_lt
  unfold lowerByte at h
  unfold isHexDigit hexVal
  dsimp only
  split_ifs at h with hup
  · have hval : (UInt8.ofNat (b.toNat + 32)).toNat = b.toNat + 32 := by
      rw [UInt8.toNat_ofNat']
      omega
    unfold isLowerHexDigit at h
    rw [hval] at h
    simp only [Bool.or_eq_true, Bool.and_eq_true, decide_eq_true_eq] at h
    rw [if_neg (by omega), if_neg (by omega), if_pos (by omega)]
    rfl
  · unfold isLowerHexDigit at h
    simp only [Bool.or_eq_true, Bool.and_eq_true, decide_eq_true_eq] at h
    rcases h with h | h
    · rw [if_pos h]
      rfl
    · rw [if_neg (by omega), if_pos h]
      rfl

theorem lowerByte_of_lower {b : UInt8} (h : isLowerHexDigit b = true) : lowerByte b = b := by
  unfold isLowerHexDigit at h
  simp only [Bool.or_eq_true, Bool.and_eq_true, decide_eq_true_eq] at h
  unfold lowerByte
  rw [if_neg (by omega)]

theorem toLower_hex {s : Bytes} (h : s.all isHexDigit = true) :
    (toLower s).all isLowerHexDigit = true := by
  rw [List.all_eq_true] at h ⊢
  intro b hb
  obtain ⟨x, hx, rfl⟩ := List.mem_map.mp hb
  exact lowerByte_hex (h x hx)

theorem toLower_of_lower {s : Bytes} (h : s.all isLowerHexDigit = true) : toLower s = s := by
  unfold toLower
  rw [List.all_eq_true] at h
  exact (List.map_congr_left fun b hb => lowerByte_of_lower (h b hb)).trans (List.map_id s)

theorem length_toLower (s : Bytes) : (toLower s).length = s.length := List.length_map _

/-! ### What the readers give -/

/-- Hex read is in lower case, and of whole bytes. -/
theorem anyHex_spec {what : String} {s t : Bytes} (h : anyHex what s = .ok t) :
    t ≠ [] ∧ t.length % 2 = 0 ∧ t.all isLowerHexDigit = true ∧ t = toLower (trim s) := by
  unfold anyHex at h
  dsimp only at h
  split_ifs at h with hlen hall
  rw [Bool.or_eq_true, not_or, List.isEmpty_iff, bne_iff_ne, ne_eq, not_not] at hlen
  rw [Bool.not_eq_true', Bool.not_eq_false] at hall
  rw [Res.ok.injEq] at h
  subst h
  refine ⟨?_, ?_, toLower_hex hall, rfl⟩
  · intro hnil
    exact hlen.1 (List.map_eq_nil_iff.mp hnil)
  · rw [length_toLower]
    exact hlen.2

/-- Lower-case hex of whole bytes reads as itself. -/
theorem anyHex_again {what : String} {t : Bytes} (hne : t ≠ []) (hlen : t.length % 2 = 0)
    (hlow : t.all isLowerHexDigit = true) : anyHex what t = .ok t := by
  have hhex := all_hex_of_lower hlow
  unfold anyHex
  dsimp only
  rw [trim_hex hhex, if_neg, if_neg, toLower_of_lower hlow]
  · rw [hhex]
    decide
  · rw [Bool.or_eq_true, not_or, List.isEmpty_iff, bne_iff_ne, ne_eq, not_not]
    exact ⟨hne, hlen⟩

theorem hexOf_hex {s : Bytes} {bytes : ℕ} (hlen : s.length = bytes * 2)
    (hhex : s.all isHexDigit = true) : hexOf s bytes = some (toLower s) := by
  unfold hexOf
  rw [trim_hex hhex, if_pos ⟨hlen, hhex⟩]

theorem decimalText_isDecimal (n : ℕ) :
    ((decimalText n).isEmpty || !(decimalText n).all isDigit) = false := by
  rw [decimalText_digits, Bool.not_true, Bool.or_false, List.isEmpty_eq_false_iff]
  exact decimalText_ne_nil _

/-- An outpoint reads back from its text, its txid in lower case. -/
theorem Outpoint.parse_text {o : Outpoint} (hlen : o.txid.length = 64)
    (hhex : o.txid.all isHexDigit = true) :
    Outpoint.parse o.text = .ok ⟨toLower o.txid, o.vout⟩ := by
  have hcolon : (0x3a : UInt8) ∉ o.txid := by
    intro hm
    exact absurd (List.all_eq_true.mp hhex _ hm) (by decide)
  have hle : decimal (decimalText o.vout.toNat) ≤ Word.maxVal 32 := by
    rw [decimal_decimalText]
    have := o.vout.toNat_lt
    unfold Word.maxVal
    omega
  unfold Outpoint.parse Outpoint.text
  rw [splitOnce_append _ hcolon, Res.okOr_some, Res.ok_bind]
  dsimp only
  rw [hexOf_hex hlen hhex, Res.okOr_some, Res.ok_bind]
  rw [decimalText_isDecimal, Res.refuseIf_false, Res.ok_bind, decide_eq_false (Nat.not_lt.mpr hle),
    Res.refuseIf_false, Res.ok_bind, decimal_decimalText, UInt32.ofNat_toNat]

/-- A height reads back from its decimal digits. -/
theorem heightTag_decimalText {tags : List (List Bytes)} {name : Bytes} {h : UInt32}
    (hfirst : firstTag name tags = some (decimalText h.toNat)) : heightTag tags name = .ok h := by
  have hle : decimal (decimalText h.toNat) ≤ Word.maxVal 32 := by
    rw [decimal_decimalText]
    have := h.toNat_lt
    unfold Word.maxVal
    omega
  unfold heightTag requiredTag
  rw [hfirst, Res.okOr_some, Res.ok_bind, decimalText_isDecimal, Res.refuseIf_false, Res.ok_bind,
    decide_eq_false (Nat.not_lt.mpr hle), Res.refuseIf_false, Res.ok_bind, decimal_decimalText,
    UInt32.ofNat_toNat]

end Nostr

end Sidestr
