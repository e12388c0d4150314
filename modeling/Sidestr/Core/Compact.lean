/-
# Compact JSON text

What `serde_json` writes of a value: no white space, a struct's fields in
their order, every string with its escapes. Any bytes may stand in a string
(a quote, a backslash, a control character, the bytes of any UTF-8 text), and
reading takes the escapes out again, so the text of a value without fractional
numbers reads back as that value (`parseJson_compact`) and no two such values
share a text (`compact_injective`).

Key definitions: `compact`, `Integral`.
Key theorems: `unescape_written`, `parseString_written`, `reads_compact`,
`parseJson_compact`, `compact_injective`.
-/
import Sidestr.Reserve.Canonical

namespace Sidestr

open Reserve

section

variable {F : Type} [FloatText F]

mutual

/-- `serde_json::to_string`. -/
def compact : Json F → Bytes
  | .obj fields => 0x7b :: (commaSep (compactFields fields) ++ [0x7d])
  | .arr items => 0x5b :: (commaSep (compactItems items) ++ [0x5d])
  | .null => ascii ['n', 'u', 'l', 'l']
  | .bool b => if b then ascii ['t', 'r', 'u', 'e'] else ascii ['f', 'a', 'l', 's', 'e']
  | .posInt n => decimalText n.toNat
  | .negInt n => 0x2d :: decimalText n.val
  | .float f => FloatText.write f
  | .str s => writeString s

def compactItems : List (Json F) → List Bytes
  | [] => []
  | v :: items => compact v :: compactItems items

def compactFields : List (Bytes × Json F) → List Bytes
  | [] => []
  | (k, v) :: fields => fieldText (writeString k) (compact v) :: compactFields fields

end

theorem compactItems_eq (items : List (Json F)) : compactItems items = items.map compact := by
  induction items with
  | nil => rw [compactItems]; rfl
  | cons v items ih => rw [compactItems, ih, List.map_cons]

theorem compactFields_eq (fields : List (Bytes × Json F)) :
    compactFields fields = fields.map fun f => fieldText (writeString f.1) (compact f.2) := by
  induction fields with
  | nil => rw [compactFields]; rfl
  | cons f fields ih =>
    obtain ⟨k, v⟩ := f
    rw [compactFields, ih, List.map_cons]

/-! ### Strings -/

omit [FloatText F]

/-- A byte is written as it is, after a backslash, or as a code. -/
theorem writeByte_cases (b : UInt8) :
    (writeByte b = [b] ∧ b ≠ 0x22 ∧ b ≠ 0x5c ∧ 0x20 ≤ b.toNat) ∨
      (∃ x, writeByte b = [0x5c, x] ∧ x ≠ 0x75 ∧ escapeByte x = some b) ∨
      (writeByte b = [0x5c, 0x75, 0x30, 0x30, hexDigit (b.toNat / 16), hexDigit (b.toNat % 16)] ∧
        b.toNat < 0x20) := by
  unfold writeByte
  by_cases h1 : b = 0x22
  · subst h1
    exact .inr (.inl ⟨0x22, rfl, by decide, by decide⟩)
  by_cases h2 : b = 0x5c
  · subst h2
    exact .inr (.inl ⟨0x5c, rfl, by decide, by decide⟩)
  by_cases h3 : b = 0x08
  · subst h3
    exact .inr (.inl ⟨0x62, rfl, by decide, by decide⟩)
  by_cases h4 : b = 0x0c
  · subst h4
    exact .inr (.inl ⟨0x66, rfl, by decide, by decide⟩)
  by_cases h5 : b = 0x0a
  · subst h5
    exact .inr (.inl ⟨0x6e, rfl, by decide, by decide⟩)
  by_cases h6 : b = 0x0d
  · subst h6
    exact .inr (.inl ⟨0x72, rfl, by decide, by decide⟩)
  by_cases h7 : b = 0x09
  · subst h7
    exact .inr (.inl ⟨0x74, rfl, by decide, by decide⟩)
  rw [if_neg h1, if_neg h2, if_neg h3, if_neg h4, if_neg h5, if_neg h6, if_neg h7]
  by_cases h8 : b.toNat < 0x20
  · rw [if_pos h8]
    exact .inr (.inr ⟨rfl, h8⟩)
  · rw [if_neg h8]
    exact .inl ⟨rfl, h1, h2, not_lt.mp h8⟩

/-- A plain byte in front of a string's body. -/
theorem stringBody_cons {b : UInt8} (hquote : b ≠ 0x22) (hslash : b ≠ 0x5c) (hlow : 0x20 ≤ b.toNat)
    {t : Bytes} (ht : t ≠ []) : stringBody (b :: t) = (stringBody t).map fun p => (b :: p.1, p.2) := by
  obtain ⟨c, r, rfl⟩ := List.exists_cons_of_ne_nil ht
  rw [stringBody, if_neg hquote, if_neg hslash, if_neg (Nat.not_lt.mpr hlow)]

theorem stringBody_escape (x : UInt8) {t : Bytes} :
    stringBody (0x5c :: x :: t) = (stringBody t).map fun p => (0x5c :: x :: p.1, p.2) := by
  rw [stringBody, if_neg (by decide), if_pos rfl]

theorem hexDigit_plain : ∀ n < 16,
    hexDigit n ≠ 0x22 ∧ hexDigit n ≠ 0x5c ∧ 0x20 ≤ (hexDigit n).toNat := by decide

theorem append_quote_ne_nil (s rest : Bytes) : s ++ 0x22 :: rest ≠ [] :=
  List.append_ne_nil_of_right_ne_nil s (List.cons_ne_nil _ _)

/-- A written string's body ends at its closing quote. -/
theorem stringBody_written (rest : Bytes) : ∀ s : Bytes,
    stringBody (s.flatMap writeByte ++ 0x22 :: rest) = some (s.flatMap writeByte, rest)
  | [] => by cases rest <;> rfl
  | b :: s => by
    have ih := stringBody_written rest s
    rw [List.flatMap_cons, List.append_assoc]
    rcases writeByte_cases b with ⟨hb, hquote, hslash, hlow⟩ | ⟨x, hb, -, -⟩ | ⟨hb, hlow⟩
    · rw [hb, List.singleton_append, stringBody_cons hquote hslash hlow (append_quote_ne_nil _ _), ih]
      rfl
    · rw [hb, List.cons_append, List.singleton_append, stringBody_escape, ih]
      rfl
    · obtain ⟨h1, h2, h3⟩ := hexDigit_plain (b.toNat / 16) (by omega)
      obtain ⟨h4, h5, h6⟩ := hexDigit_plain (b.toNat % 16) (by omega)
      rw [hb]
      simp only [List.cons_append, List.nil_append]
      rw [stringBody_escape,
        stringBody_cons (by decide) (by decide) (by decide) (List.cons_ne_nil _ _),
        stringBody_cons (by decide) (by decide) (by decide) (List.cons_ne_nil _ _),
        stringBody_cons h1 h2 h3 (List.cons_ne_nil _ _),
        stringBody_cons h4 h5 h6 (append_quote_ne_nil _ _), ih]
      rfl

/-- A one-letter escape. -/
theorem unescape_letter {x b : UInt8} (hu : x ≠ 0x75) (hx : escapeByte x = some b) (t : Bytes) :
    unescape (0x5c :: x :: t) = (unescape t).map (b :: ·) := by
  rw [unescape.eq_def]
  split
  · rename_i hc
    cases hc
  · rename_i hc
    exact absurd (List.cons.inj (List.cons.inj hc).2).1 hu
  · rename_i hc
    exact absurd (List.cons.inj (List.cons.inj hc).2).1 hu
  · rename_i hc
    obtain ⟨-, hc⟩ := List.cons.inj hc
    obtain ⟨rfl, rfl⟩ := List.cons.inj hc
    rw [hx]
    rfl
  · rename_i hno hc
    obtain ⟨rfl, rfl⟩ := List.cons.inj hc
    exact (hno x t rfl rfl).elim

/-- The escape of a control character, whatever follows. -/
theorem unescape_code {n : ℕ} (hn : n < 0x20) {x y : UInt8}
    (hx : hexUnit 0x30 0x30 x y = some n) (t : Bytes) :
    unescape (0x5c :: 0x75 :: 0x30 :: 0x30 :: x :: y :: t) =
      (unescape t).map (UInt8.ofNat n :: ·) := by
  have hbytes : utf8Bytes n = [UInt8.ofNat n] := by
    unfold utf8Bytes
    rw [if_pos (by omega)]
  rw [unescape.eq_def]
  split
  · rename_i hc
    cases hc
  · rename_i a b c d e f g h rest hc
    simp only [List.cons.injEq, true_and] at hc
    obtain ⟨rfl, rfl, rfl, rfl, rfl⟩ := hc
    simp only [hx, Option.bind_eq_bind, Option.bind_some]
    rw [if_neg (by omega), if_neg (by omega), hbytes]
    rfl
  · rename_i a b c d rest _ hc
    simp only [List.cons.injEq, true_and] at hc
    obtain ⟨rfl, rfl, rfl, rfl, rfl⟩ := hc
    simp only [hx, Option.bind_eq_bind, Option.bind_some]
    rw [if_neg (by omega), hbytes]
    rfl
  · rename_i hno hc
    simp only [List.cons.injEq, true_and] at hc
    obtain ⟨rfl, rfl⟩ := hc
    exact (hno 0x30 0x30 x y t rfl rfl).elim
  · rename_i hno hc
    simp only [List.cons.injEq] at hc
    obtain ⟨rfl, rfl⟩ := hc
    exact (hno 0x75 (0x30 :: 0x30 :: x :: y :: t) rfl rfl).elim

theorem hexUnit_digits {n : ℕ} (hn : n < 0x20) :
    hexUnit 0x30 0x30 (hexDigit (n / 16)) (hexDigit (n % 16)) = some n := by
  unfold hexUnit
  rw [hexVal_hexDigit _ (by omega), hexVal_hexDigit _ (by omega), show hexVal 0x30 = some 0 by decide]
  change some (((0 * 16 + 0) * 16 + n / 16) * 16 + n % 16) = some n
  rw [Option.some.injEq]
  omega

/-- The escapes are taken out of what is written. -/
theorem unescape_written : ∀ s : Bytes, unescape (s.flatMap writeByte) = some s
  | [] => by rw [List.flatMap_nil, unescape]
  | b :: s => by
    have ih := unescape_written s
    rw [List.flatMap_cons]
    rcases writeByte_cases b with ⟨hb, -, hslash, -⟩ | ⟨x, hb, hu, hx⟩ | ⟨hb, hlow⟩
    · rw [hb, List.singleton_append, unescape_cons hslash, ih]
      rfl
    · rw [hb, List.cons_append, List.singleton_append, unescape_letter hu hx, ih]
      rfl
    · rw [hb]
      simp only [List.cons_append, List.nil_append]
      rw [unescape_code hlow (hexUnit_digits hlow), ih, UInt8.ofNat_toNat]
      rfl

theorem parseString_written (s rest : Bytes) :
    parseString (s.flatMap writeByte ++ 0x22 :: rest) = some (s, rest) := by
  unfold parseString
  rw [stringBody_written]
  change (unescape (s.flatMap writeByte)).bind (fun text => some (text, rest)) = _
  rw [unescape_written]
  rfl

/-! ### Values -/

/-- A value without fractional numbers. -/
inductive Integral : Json F → Prop
  | null : Integral .null
  | bool (b : Bool) : Integral (.bool b)
  | posInt (n : UInt64) : Integral (.posInt n)
  | negInt (n : { n : ℕ // 0 < n ∧ n ≤ 2 ^ 63 }) : Integral (.negInt n)
  | str (s : Bytes) : Integral (.str s)
  | arr (items : List (Json F)) (h : ∀ v ∈ items, Integral v) : Integral (.arr items)
  | obj (fields : List (Bytes × Json F)) (h : ∀ f ∈ fields, Integral f.2) : Integral (.obj fields)

end

section

variable {F : Type} [FloatText F]

/-- A value's text starts with no space and no closing bracket. -/
theorem compact_head {v : Json F} (h : Integral v) : ∃ b s, compact v = b :: s ∧
    isJsonSpace b = false ∧ b ≠ 0x5d := by
  cases h with
  | null => exact ⟨0x6e, ascii ['u', 'l', 'l'], by rw [compact]; rfl, by decide, by decide⟩
  | bool b =>
    cases b with
    | true => exact ⟨0x74, ascii ['r', 'u', 'e'], by rw [compact]; rfl, by decide, by decide⟩
    | false => exact ⟨0x66, ascii ['a', 'l', 's', 'e'], by rw [compact]; rfl, by decide, by decide⟩
  | posInt n =>
    obtain ⟨b, s, hcons, hb⟩ := decimalText_cons n.toNat
    refine ⟨b, s, by rw [compact, hcons], (numberStart (.inl hb)).1, ?_⟩
    rintro rfl
    exact absurd hb (by decide)
  | negInt n => exact ⟨0x2d, decimalText n.val, by rw [compact], by decide, by decide⟩
  | str s => exact ⟨0x22, s.flatMap writeByte ++ [0x22], by rw [compact]; rfl, by decide, by decide⟩
  | arr items h =>
    exact ⟨0x5b, commaSep (compactItems items) ++ [0x5d], by rw [compact], by decide, by decide⟩
  | obj fields h =>
    exact ⟨0x7b, commaSep (compactFields fields) ++ [0x7d], by rw [compact], by decide, by decide⟩

theorem reads_string (s : Bytes) : Reads (F := F) (writeString s) (.str s) := by
  intro fuel rest hfuel _
  obtain ⟨k, rfl⟩ : ∃ k, fuel = k + 1 := by
    unfold writeString at hfuel
    rw [List.length_cons] at hfuel
    exact ⟨fuel - 1, by omega⟩
  have htext : writeString s ++ rest = 0x22 :: (s.flatMap writeByte ++ 0x22 :: rest) := by
    unfold writeString
    rw [List.cons_append, List.append_assoc]
    rfl
  rw [htext, parseValue_cons (by decide), if_pos rfl, parseString_written]
  rfl

/-- Texts with commas between them are read one by one. -/
theorem parseItems_texts {rest : Bytes} : ∀ {items : List (Json F)} {fuel : ℕ}, items ≠ [] →
    (∀ v ∈ items, Reads (compact v) v) → (commaSep (items.map compact)).length + 1 ≤ fuel →
    parseItems fuel (commaSep (items.map compact) ++ 0x5d :: rest) = some (items, rest)
  | [], _, hne, _, _ => absurd rfl hne
  | [v], fuel, _, hall, hfuel => by
    obtain ⟨k, rfl⟩ : ∃ k, fuel = k + 1 := ⟨fuel - 1, by omega⟩
    rw [List.map_singleton, commaSep] at hfuel ⊢
    have hv := hall v List.mem_cons_self k (0x5d :: rest) (by omega) (numberEnds_bracket rest)
    rw [parseItems, hv]
    simp only [Option.bind_eq_bind, Option.bind_some]
    rw [skipSpace_cons (by decide)]
    rfl
  | v :: w :: items, fuel, _, hall, hfuel => by
    obtain ⟨k, rfl⟩ : ∃ k, fuel = k + 1 := ⟨fuel - 1, by omega⟩
    have hsplit : commaSep ((v :: w :: items).map compact) =
        compact v ++ 0x2c :: commaSep ((w :: items).map compact) := rfl
    rw [hsplit] at hfuel ⊢
    rw [List.length_append, List.length_cons] at hfuel
    have hmore := @parseItems_texts rest (w :: items) k (List.cons_ne_nil w items)
      (fun x hx => hall x (List.mem_cons_of_mem _ hx)) (by omega)
    have hv := hall v List.mem_cons_self k
      (0x2c :: (commaSep ((w :: items).map compact) ++ 0x5d :: rest)) (by omega)
      (numberEnds_comma _)
    rw [List.append_assoc, List.cons_append, parseItems, hv]
    simp only [Option.bind_eq_bind, Option.bind_some]
    rw [skipSpace_cons (by decide)]
    dsimp only
    rw [if_pos rfl, hmore]
    rfl

/-- One field in front of what follows it. -/
theorem parseFields_text {k : Bytes} {v : Json F} {fuel : ℕ} {tail : Bytes}
    (hv : Reads (compact v) v) (hfuel : (compact v).length ≤ fuel) (hend : NumberEnds tail) :
    (parseFields (fuel + 1) (fieldText (writeString k) (compact v) ++ tail) :
      Option (List (Bytes × Json F) × Bytes)) =
      match skipSpace tail with
      | [] => none
      | b :: rest =>
        if b = 0x2c then (parseFields fuel rest).map fun p => ((k, v) :: p.1, p.2)
        else if b = 0x7d then some ([(k, v)], rest)
        else none := by
  have htext : fieldText (writeString k) (compact v) ++ tail =
      0x22 :: (k.flatMap writeByte ++ 0x22 :: 0x3a :: (compact v ++ tail)) := by
    unfold fieldText writeString
    simp only [List.cons_append, List.append_assoc, List.nil_append]
  rw [htext, parseFields, skipSpace_cons (by decide)]
  dsimp only
  rw [if_neg (by decide), parseString_written]
  simp only [Option.bind_eq_bind, Option.bind_some]
  rw [skipSpace_cons (by decide)]
  dsimp only
  rw [if_neg (by decide), hv fuel tail hfuel hend]
  rfl

/-- The texts of an object's fields are read one by one. -/
theorem parseFields_texts {rest : Bytes} : ∀ {fields : List (Bytes × Json F)} {fuel : ℕ},
    fields ≠ [] → (∀ f ∈ fields, Reads (compact f.2) f.2) →
    (commaSep (fields.map fun f => fieldText (writeString f.1) (compact f.2))).length + 1 ≤ fuel →
    parseFields fuel (commaSep (fields.map fun f => fieldText (writeString f.1) (compact f.2)) ++
      0x7d :: rest) = some (fields, rest)
  | [], _, hne, _, _ => absurd rfl hne
  | [f], fuel, _, hall, hfuel => by
    obtain ⟨k, rfl⟩ : ∃ k, fuel = k + 1 := ⟨fuel - 1, by omega⟩
    rw [List.map_singleton, commaSep] at hfuel ⊢
    unfold fieldText at hfuel
    rw [List.length_append, List.length_cons] at hfuel
    rw [parseFields_text (hall f List.mem_cons_self) (by omega) (numberEnds_brace rest),
      skipSpace_cons (by decide)]
    rfl
  | f :: g :: fields, fuel, _, hall, hfuel => by
    obtain ⟨k, rfl⟩ : ∃ k, fuel = k + 1 := ⟨fuel - 1, by omega⟩
    have hsplit : commaSep ((f :: g :: fields).map fun f =>
        fieldText (writeString f.1) (compact f.2)) = fieldText (writeString f.1) (compact f.2) ++
          0x2c :: commaSep ((g :: fields).map fun f => fieldText (writeString f.1) (compact f.2)) :=
      rfl
    rw [hsplit] at hfuel ⊢
    rw [List.length_append, List.length_cons] at hfuel
    have hpart : (fieldText (writeString f.1) (compact f.2)).length =
        (writeString f.1).length + ((compact f.2).length + 1) := by
      unfold fieldText
      rw [List.length_append, List.length_cons]
    have hmore := @parseFields_texts rest (g :: fields) k (List.cons_ne_nil g fields)
      (fun x hx => hall x (List.mem_cons_of_mem _ hx)) (by omega)
    rw [List.append_assoc, List.cons_append, parseFields_text (hall f List.mem_cons_self) (by omega)
      (numberEnds_comma _), skipSpace_cons (by decide)]
    dsimp only
    rw [if_pos rfl, hmore]
    rfl

/-- An array is read back when its items are. -/
theorem reads_items {items : List (Json F)} (h : ∀ v ∈ items, Integral v)
    (ih : ∀ v ∈ items, Reads (compact v) v) : Reads (compact (.arr items)) (.arr items) := by
  rw [compact, compactItems_eq]
  intro fuel rest hfuel _
  rw [List.length_cons, List.length_append, List.length_singleton] at hfuel
  obtain ⟨k, rfl⟩ : ∃ k, fuel = k + 1 := ⟨fuel - 1, by omega⟩
  rw [List.cons_append, parseValue_cons (by decide), if_neg (by decide), if_pos rfl,
    List.append_assoc]
  cases items with
  | nil => rfl
  | cons v items =>
    have hhead : (skipSpace (commaSep ((v :: items).map compact) ++ ([0x5d] ++ rest))).head? ≠
        some 0x5d := by
      obtain ⟨b, s, hb, hspace, hne⟩ := compact_head (h v List.mem_cons_self)
      have hcons : ∃ t, commaSep ((v :: items).map compact) ++ ([0x5d] ++ rest) = b :: t := by
        cases items with
        | nil => exact ⟨s ++ ([0x5d] ++ rest), by rw [List.map_singleton, commaSep, hb]; rfl⟩
        | cons w items =>
          refine ⟨s ++ 0x2c :: commaSep ((w :: items).map compact) ++ ([0x5d] ++ rest), ?_⟩
          rw [List.map_cons, List.map_cons, commaSep, hb]
          rfl
      obtain ⟨t, ht⟩ := hcons
      rw [ht, skipSpace_cons hspace, List.head?_cons]
      exact fun hc => hne (Option.some.inj hc)
    rw [if_neg hhead]
    change (parseItems k (commaSep ((v :: items).map compact) ++ 0x5d :: rest)).map _ = _
    rw [parseItems_texts (List.cons_ne_nil v items) ih (by omega)]
    rfl

/-- An object is read back when its fields' values are. -/
theorem reads_fields {fields : List (Bytes × Json F)}
    (ih : ∀ f ∈ fields, Reads (compact f.2) f.2) : Reads (compact (.obj fields)) (.obj fields) := by
  rw [compact, compactFields_eq]
  intro fuel rest hfuel _
  rw [List.length_cons, List.length_append, List.length_singleton] at hfuel
  obtain ⟨k, rfl⟩ : ∃ k, fuel = k + 1 := ⟨fuel - 1, by omega⟩
  rw [List.cons_append, parseValue_cons (by decide), if_neg (by decide), if_neg (by decide),
    if_pos rfl, List.append_assoc]
  cases fields with
  | nil => rfl
  | cons f fields =>
    have hhead : (skipSpace (commaSep ((f :: fields).map fun f =>
        fieldText (writeString f.1) (compact f.2)) ++ ([0x7d] ++ rest))).head? ≠ some 0x7d := by
      have hcons : ∃ t, commaSep ((f :: fields).map fun f =>
          fieldText (writeString f.1) (compact f.2)) ++ ([0x7d] ++ rest) = 0x22 :: t := by
        cases fields with
        | nil => exact ⟨_, rfl⟩
        | cons g fields => exact ⟨_, rfl⟩
      obtain ⟨t, ht⟩ := hcons
      rw [ht, skipSpace_cons (by decide)]
      exact fun hc => absurd (Option.some.inj hc) (by decide)
    rw [if_neg hhead]
    change (parseFields k (commaSep ((f :: fields).map fun f =>
      fieldText (writeString f.1) (compact f.2)) ++ 0x7d :: rest)).map _ = _
    rw [parseFields_texts (List.cons_ne_nil f fields) ih (by omega)]
    rfl

theorem reads_compact {v : Json F} (h : Integral v) : Reads (compact v) v := by
  induction h with
  | null =>
    have hnull := reads_null (F := F)
    rwa [writeJcs, Json.sortKeys] at hnull
  | bool b =>
    have hbool := reads_bool (F := F) b
    rwa [writeJcs, Json.sortKeys] at hbool
  | posInt n =>
    rw [compact]
    exact reads_posInt n
  | negInt n =>
    rw [compact]
    exact reads_negInt n
  | str s =>
    rw [compact]
    exact reads_string s
  | arr items h ih => exact reads_items h ih
  | obj fields h ih => exact reads_fields ih

/-- **The compact text reads back as the value.** -/
theorem parseJson_compact {v : Json F} (h : Integral v) : parseJson (compact v) = some v := by
  have hread := reads_compact h ((compact v).length + 1) [] (by omega) (fun b hb => by cases hb)
  rw [List.append_nil] at hread
  unfold parseJson
  rw [hread]
  rfl

/-- One text is one value. -/
theorem compact_injective {v w : Json F} (hv : Integral v) (hw : Integral w)
    (h : compact v = compact w) : v = w := by
  have hread := parseJson_compact hv
  rw [h, parseJson_compact hw] at hread
  exact (Option.some.inj hread).symm

end

end Sidestr
