/-
# JSON

JSON values over byte strings, as `serde_json` holds them with its order
preserved: integers of 64 bits either side of zero apart from the numbers that
are neither, objects as their fields in order. Two values are the same when they
differ in the order of fields alone, which is when they agree once every object
is sorted by its keys (`sortKeys`). `parseJson` reads a text by the grammar.

Key definitions: `Json`, `Json.sortKeys`, `keyLe`, `parseJson`.
Key theorems: `Json.induct`, `keyLe_total`, `keyLe_trans`, `keyLe_antisymm`,
`sortFields_map`.
-/
import Mathlib.Data.List.Sort
import Sidestr.Core.Text

namespace Sidestr

/-- A JSON value; `F` is for the numbers that are not integers of 64 bits. -/
inductive Json (F : Type)
  | null
  | bool (b : Bool)
  | posInt (n : UInt64)
  /-- Minus this, down to `-2 ^ 63`. -/
  | negInt (n : { n : ℕ // 0 < n ∧ n ≤ 2 ^ 63 })
  | float (f : F)
  | str (s : Bytes)
  | arr (items : List (Json F))
  | obj (fields : List (Bytes × Json F))

/-- The numbers that are not integers of 64 bits, as texts. -/
class FloatText (F : Type) where
  read : Bytes → Option F
  write : F → Bytes

namespace Json

variable {F : Type}

theorem sizeOf_field {f : Bytes × Json F} {fields : List (Bytes × Json F)} (h : f ∈ fields) :
    sizeOf f.2 < sizeOf (Json.obj fields) := by
  have hmem := List.sizeOf_lt_of_mem h
  obtain ⟨k, v⟩ := f
  simp only [Prod.mk.sizeOf_spec, Json.obj.sizeOf_spec] at hmem ⊢
  omega

theorem sizeOf_item {v : Json F} {items : List (Json F)} (h : v ∈ items) :
    sizeOf v < sizeOf (Json.arr items) := by
  have hmem := List.sizeOf_lt_of_mem h
  simp only [Json.arr.sizeOf_spec]
  omega

/-- Induction over the values, their items and the values of their fields. -/
theorem induct {P : Json F → Prop} (null : P .null) (bool : ∀ b, P (.bool b))
    (posInt : ∀ n, P (.posInt n)) (negInt : ∀ n, P (.negInt n)) (float : ∀ f, P (.float f))
    (str : ∀ s, P (.str s)) (arr : ∀ items, (∀ v ∈ items, P v) → P (.arr items))
    (obj : ∀ fields, (∀ f ∈ fields, P f.2) → P (.obj fields)) : ∀ v, P v
  | .null => null
  | .bool b => bool b
  | .posInt n => posInt n
  | .negInt n => negInt n
  | .float f => float f
  | .str s => str s
  | .arr items => arr items fun v _ => induct null bool posInt negInt float str arr obj v
  | .obj fields => obj fields fun f _ => induct null bool posInt negInt float str arr obj f.2
termination_by v => sizeOf v
decreasing_by
  · exact sizeOf_item ‹_›
  · exact sizeOf_field ‹_›

end Json

/-! ### The order of keys -/

/-- Texts in the order of their units. -/
def keyLe : List ℕ → List ℕ → Bool
  | [], _ => true
  | _ :: _, [] => false
  | a :: l, b :: l' => decide (a < b) || (a == b && keyLe l l')

theorem keyLe_total : ∀ l l' : List ℕ, keyLe l l' = true ∨ keyLe l' l = true
  | [], _ => .inl rfl
  | _ :: _, [] => .inr rfl
  | a :: l, b :: l' => by
    simp only [keyLe, Bool.or_eq_true, Bool.and_eq_true, decide_eq_true_eq, beq_iff_eq]
    rcases Nat.lt_trichotomy a b with h | h | h
    · exact .inl (.inl h)
    · rcases keyLe_total l l' with hl | hl
      · exact .inl (.inr ⟨h, hl⟩)
      · exact .inr (.inr ⟨h.symm, hl⟩)
    · exact .inr (.inl h)

theorem keyLe_trans : ∀ {l l' l'' : List ℕ}, keyLe l l' = true → keyLe l' l'' = true →
    keyLe l l'' = true
  | [], _, _, _, _ => rfl
  | _ :: _, [], _, h, _ => by cases h
  | _ :: _, _ :: _, [], _, h => by cases h
  | a :: l, b :: l', c :: l'', h, h' => by
    simp only [keyLe, Bool.or_eq_true, Bool.and_eq_true, decide_eq_true_eq, beq_iff_eq] at h h' ⊢
    rcases h with h | ⟨rfl, h⟩
    · rcases h' with h' | ⟨rfl, -⟩
      · exact .inl (h.trans h')
      · exact .inl h
    · rcases h' with h' | ⟨rfl, h'⟩
      · exact .inl h'
      · exact .inr ⟨rfl, keyLe_trans h h'⟩

theorem keyLe_antisymm : ∀ {l l' : List ℕ}, keyLe l l' = true → keyLe l' l = true → l = l'
  | [], [], _, _ => rfl
  | [], _ :: _, _, h => by cases h
  | _ :: _, [], h, _ => by cases h
  | a :: l, b :: l', h, h' => by
    simp only [keyLe, Bool.or_eq_true, Bool.and_eq_true, decide_eq_true_eq, beq_iff_eq] at h h'
    rcases h with h | ⟨rfl, h⟩
    · rcases h' with h' | ⟨rfl, -⟩
      · omega
      · omega
    · rcases h' with h' | ⟨-, h'⟩
      · omega
      · rw [keyLe_antisymm h h']

/-- A text's bytes as numbers. -/
def byteUnits (s : Bytes) : List ℕ := s.map UInt8.toNat

theorem byteUnits_injective : Function.Injective byteUnits := by
  intro a b h
  exact List.map_injective_iff.mpr (fun x y hxy => UInt8.toNat_inj.mp hxy) h

/-- The fields in the order of some units of their keys. -/
def sortFields {α : Type} (units : Bytes → List ℕ) (fields : List (Bytes × α)) :
    List (Bytes × α) :=
  fields.insertionSort fun a b => keyLe (units a.1) (units b.1)

/-- Sorting sees the keys alone. -/
theorem sortFields_map {α β : Type} (units : Bytes → List ℕ) (g : Bytes → α → β)
    (fields : List (Bytes × α)) :
    sortFields units (fields.map fun f => (f.1, g f.1 f.2)) =
      (sortFields units fields).map fun f => (f.1, g f.1 f.2) := by
  unfold sortFields
  exact (List.map_insertionSort (fun a b : Bytes × α => keyLe (units a.1) (units b.1))
    (fun a b : Bytes × β => keyLe (units a.1) (units b.1)) (fun f => (f.1, g f.1 f.2)) fields
    fun _ _ _ _ => Iff.rfl).symm

/-- Units that order the keys alike sort alike. -/
theorem sortFields_congr {α : Type} {units units' : Bytes → List ℕ} {fields : List (Bytes × α)}
    (h : ∀ f ∈ fields, units f.1 = units' f.1) :
    sortFields units fields = sortFields units' fields := by
  unfold sortFields
  have hsame := List.map_insertionSort (fun a b : Bytes × α => keyLe (units a.1) (units b.1))
    (fun a b : Bytes × α => keyLe (units' a.1) (units' b.1)) id fields
    (fun a ha b hb => by rw [h a ha, h b hb]; rfl)
  rwa [List.map_id, List.map_id] at hsame

theorem sortFields_perm {α : Type} (units : Bytes → List ℕ) (fields : List (Bytes × α)) :
    (sortFields units fields).Perm fields := List.perm_insertionSort _ fields

namespace Json

variable {F : Type}

mutual

/-- The value with every object's fields in the order of their keys. -/
def sortKeys : Json F → Json F
  | .arr items => .arr (sortItems items)
  | .obj fields => .obj (sortFields byteUnits (sortEach fields))
  | .null => .null
  | .bool b => .bool b
  | .posInt n => .posInt n
  | .negInt n => .negInt n
  | .float f => .float f
  | .str s => .str s

def sortItems : List (Json F) → List (Json F)
  | [] => []
  | v :: items => sortKeys v :: sortItems items

def sortEach : List (Bytes × Json F) → List (Bytes × Json F)
  | [] => []
  | (k, v) :: fields => (k, sortKeys v) :: sortEach fields

end

theorem sortItems_eq (items : List (Json F)) : sortItems items = items.map sortKeys := by
  induction items with
  | nil => rw [sortItems, List.map_nil]
  | cons v items ih => rw [sortItems, ih, List.map_cons]

theorem sortEach_eq (fields : List (Bytes × Json F)) :
    sortEach fields = fields.map fun f => (f.1, sortKeys f.2) := by
  induction fields with
  | nil => rw [sortEach, List.map_nil]
  | cons f fields ih => rw [sortEach, ih, List.map_cons]

/-- An object sorted: its fields in order, each sorted. -/
theorem sortKeys_obj (fields : List (Bytes × Json F)) : sortKeys (.obj fields) =
    .obj ((sortFields byteUnits fields).map fun f => (f.1, sortKeys f.2)) := by
  rw [sortKeys, sortEach_eq, sortFields_map byteUnits fun _ v => sortKeys v]

end Json

/-! ### Reading -/

def isJsonSpace (b : UInt8) : Bool := b == 0x20 || b == 0x0a || b == 0x0d || b == 0x09

def skipSpace (s : Bytes) : Bytes := s.dropWhile isJsonSpace

/-- A byte of a number. -/
def isNumberByte (b : UInt8) : Bool :=
  isDigit b || b == 0x2d || b == 0x2b || b == 0x2e || b == 0x65 || b == 0x45

/-- Whether the text is a number's digits as they are written, without leading
zeros. -/
def isPlainDecimal (s : Bytes) : Bool := s.all isDigit && s == decimalText (decimal s)

section

variable {F : Type} [FloatText F]

def readNumber (run : Bytes) : Option (Json F) :=
  match run with
  | [] => none
  | sign :: digits =>
    if sign = 0x2d then
      if h : isPlainDecimal digits = true ∧ 0 < decimal digits ∧ decimal digits ≤ 2 ^ 63 then
        some (.negInt ⟨decimal digits, h.2⟩)
      else (FloatText.read run).map .float
    else if isPlainDecimal run ∧ decimal run < 2 ^ 64 then
      some (.posInt (UInt64.ofNat (decimal run)))
    else (FloatText.read run).map .float

/-- The UTF-8 bytes of a code point. -/
def utf8Bytes (n : ℕ) : Bytes :=
  if n < 0x80 then [UInt8.ofNat n]
  else if n < 0x800 then [UInt8.ofNat (0xc0 + n / 64), UInt8.ofNat (0x80 + n % 64)]
  else if n < 0x10000 then
    [UInt8.ofNat (0xe0 + n / 4096), UInt8.ofNat (0x80 + n / 64 % 64), UInt8.ofNat (0x80 + n % 64)]
  else [UInt8.ofNat (0xf0 + n / 262144), UInt8.ofNat (0x80 + n / 4096 % 64),
    UInt8.ofNat (0x80 + n / 64 % 64), UInt8.ofNat (0x80 + n % 64)]

/-- The number four hex digits write. -/
def hexUnit (a b c d : UInt8) : Option ℕ := do
  let a ← hexVal a
  let b ← hexVal b
  let c ← hexVal c
  let d ← hexVal d
  some (((a * 16 + b) * 16 + c) * 16 + d)

/-- What a one-letter escape stands for. -/
def escapeByte (b : UInt8) : Option UInt8 :=
  if b = 0x22 ∨ b = 0x5c ∨ b = 0x2f then some b
  else if b = 0x62 then some 0x08
  else if b = 0x66 then some 0x0c
  else if b = 0x6e then some 0x0a
  else if b = 0x72 then some 0x0d
  else if b = 0x74 then some 0x09
  else none

/-- A string up to its closing quote, its escapes left in. -/
def stringBody : Bytes → Option (Bytes × Bytes)
  | [] => none
  | [b] => if b = 0x22 then some ([], []) else none
  | b :: c :: rest =>
    if b = 0x22 then some ([], c :: rest)
    else if b = 0x5c then (stringBody rest).map fun p => (b :: c :: p.1, p.2)
    else if b.toNat < 0x20 then none
    else (stringBody (c :: rest)).map fun p => (b :: p.1, p.2)

/-- The escapes of a string's text taken out; `\u` in pairs above the first plane. -/
def unescape : Bytes → Option Bytes
  | [] => some []
  | 0x5c :: 0x75 :: a :: b :: c :: d :: 0x5c :: 0x75 :: e :: f :: g :: h :: rest => do
    let hi ← hexUnit a b c d
    if 0xd800 ≤ hi ∧ hi < 0xdc00 then
      let lo ← hexUnit e f g h
      if 0xdc00 ≤ lo ∧ lo < 0xe000 then
        (unescape rest).map (utf8Bytes (0x10000 + (hi - 0xd800) * 0x400 + (lo - 0xdc00)) ++ ·)
      else none
    else if 0xdc00 ≤ hi ∧ hi < 0xe000 then none
    else (unescape (0x5c :: 0x75 :: e :: f :: g :: h :: rest)).map (utf8Bytes hi ++ ·)
  | 0x5c :: 0x75 :: a :: b :: c :: d :: rest => do
    let n ← hexUnit a b c d
    if 0xd800 ≤ n ∧ n < 0xe000 then none else (unescape rest).map (utf8Bytes n ++ ·)
  | 0x5c :: b :: rest => do
    let x ← escapeByte b
    (unescape rest).map (x :: ·)
  | b :: rest => if b = 0x5c then none else (unescape rest).map (b :: ·)

/-- A string after its opening quote, and what follows it. -/
def parseString (s : Bytes) : Option (Bytes × Bytes) := do
  let (body, rest) ← stringBody s
  let text ← unescape body
  some (text, rest)

/-- A literal or a number, and what follows it. -/
def parseScalar (s : Bytes) : Option (Json F × Bytes) :=
  match stripPrefix (ascii ['n', 'u', 'l', 'l']) s with
  | some rest => some (.null, rest)
  | none =>
    match stripPrefix (ascii ['t', 'r', 'u', 'e']) s with
    | some rest => some (.bool true, rest)
    | none =>
      match stripPrefix (ascii ['f', 'a', 'l', 's', 'e']) s with
      | some rest => some (.bool false, rest)
      | none =>
        (readNumber (s.takeWhile isNumberByte)).map fun n => (n, s.dropWhile isNumberByte)

mutual

/-- A value at the front of a text, and what follows it; `fuel` bounds the depth. -/
def parseValue : ℕ → Bytes → Option (Json F × Bytes)
  | 0, _ => none
  | fuel + 1, s =>
    match skipSpace s with
    | [] => none
    | b :: rest =>
      if b = 0x22 then (parseString rest).map fun p => (.str p.1, p.2)
      else if b = 0x5b then
        if (skipSpace rest).head? = some 0x5d then some (.arr [], (skipSpace rest).tail)
        else (parseItems fuel rest).map fun p => (.arr p.1, p.2)
      else if b = 0x7b then
        if (skipSpace rest).head? = some 0x7d then some (.obj [], (skipSpace rest).tail)
        else (parseFields fuel rest).map fun p => (.obj p.1, p.2)
      else parseScalar (b :: rest)

def parseItems : ℕ → Bytes → Option (List (Json F) × Bytes)
  | 0, _ => none
  | fuel + 1, s => do
    let (v, rest) ← parseValue fuel s
    match skipSpace rest with
    | [] => none
    | b :: rest =>
      if b = 0x2c then (parseItems fuel rest).map fun p => (v :: p.1, p.2)
      else if b = 0x5d then some ([v], rest)
      else none

def parseFields : ℕ → Bytes → Option (List (Bytes × Json F) × Bytes)
  | 0, _ => none
  | fuel + 1, s =>
    match skipSpace s with
    | [] => none
    | q :: rest =>
      if q ≠ 0x22 then none
      else do
        let (k, rest) ← parseString rest
        match skipSpace rest with
        | [] => none
        | c :: rest =>
          if c ≠ 0x3a then none
          else do
            let (v, rest) ← parseValue fuel rest
            match skipSpace rest with
            | [] => none
            | b :: rest =>
              if b = 0x2c then (parseFields fuel rest).map fun p => ((k, v) :: p.1, p.2)
              else if b = 0x7d then some ([(k, v)], rest)
              else none

end

/-- The value a whole text is. -/
def parseJson (s : Bytes) : Option (Json F) :=
  (parseValue (s.length + 1) s).bind fun p => if skipSpace p.2 = [] then some p.1 else none

end

end Sidestr
