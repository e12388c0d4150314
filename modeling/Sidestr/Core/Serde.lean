/-
# Structs as JSON

How derived code writes a struct and reads it: its fields in order, those that
are skipped left out; read in any order, an unknown field passed over, a field
that comes twice refused, a missing one an error unless it has a default. A
struct may also come as an array of its fields. `Codec.Keeps` is the round trip
of one value; a struct's follows from its fields' (`required_present`,
`defaulted_present`).

Key definitions: `Codec`, `Codec.Keeps`, `Codec.Gives`, `structFields`, `fieldOnce`, `present`,
`taggedBy`, `readFirst`.
Key theorems: `fieldOnce_present`, `required_present`, `readFirst_present`.
-/
import Sidestr.Core.Compact
import Sidestr.Core.PegTweak

namespace Sidestr

open Reserve

/-- Where no fractional number is read or written. -/
instance noFloats : FloatText Empty where
  read _ := none
  write := nofun

/-- How the values of a type are written and read. -/
structure Codec (F α : Type) where
  write : α → Json F
  read : Json F → Option α

section

variable {F α β : Type}

/-- The value is written without fractional numbers, and read back. -/
def Codec.Keeps (c : Codec F α) (a : α) : Prop :=
  Integral (c.write a) ∧ c.read (c.write a) = some a

/-! ### Values -/

/-- An unsigned integer of `w` bits. -/
def uintCodec (w : ℕ) : Codec F ℕ where
  write n := .posInt (UInt64.ofNat n)
  read
    | .posInt n => if n.toNat < 2 ^ w then some n.toNat else none
    | _ => none

theorem uint_keeps {w n : ℕ} (hw : w ≤ 64) (hn : n < 2 ^ w) : (uintCodec (F := F) w).Keeps n := by
  have h64 : n < 2 ^ 64 := hn.trans_le (Nat.pow_le_pow_right (by decide) hw)
  have hval : (UInt64.ofNat n).toNat = n := UInt64.toNat_ofNat_of_lt' h64
  refine ⟨.posInt _, ?_⟩
  change (if (UInt64.ofNat n).toNat < 2 ^ w then some (UInt64.ofNat n).toNat else none) = some n
  rw [hval, if_pos hn]

/-- A string, as its bytes. -/
def bytesCodec : Codec F Bytes where
  write s := .str s
  read
    | .str s => some s
    | _ => none

theorem bytes_keeps (s : Bytes) : (bytesCodec (F := F)).Keeps s := ⟨.str s, rfl⟩

/-- The UTF-8 bytes of a text. -/
def textBytes (t : List Char) : Bytes := t.flatMap String.utf8EncodeChar

def textOf (s : Bytes) : Option (List Char) :=
  (ByteArray.mk s.toArray).utf8Decode?.map Array.toList

theorem textOf_textBytes (t : List Char) : textOf (textBytes t) = some t := by
  have hbytes : ByteArray.mk (textBytes t).toArray = t.utf8Encode := by
    apply ByteArray.ext
    rw [List.utf8Encode, List.data_toByteArray]
    rfl
  unfold textOf
  rw [hbytes, List.utf8Decode?_utf8Encode]
  rfl

def textCodec : Codec F (List Char) where
  write t := .str (textBytes t)
  read
    | .str s => textOf s
    | _ => none

theorem text_keeps (t : List Char) : (textCodec (F := F)).Keeps t := ⟨.str _, textOf_textBytes t⟩

/-- `len` bytes as lower-case hex. -/
def hexCodec (len : ℕ) : Codec F Bytes where
  write b := .str (hexEncode b)
  read
    | .str s => if s.length = len * 2 ∧ s.all isLowerHexDigit = true then hexDecode s else none
    | _ => none

theorem hex_keeps {len : ℕ} {b : Bytes} (hb : b.length = len) : (hexCodec (F := F) len).Keeps b := by
  refine ⟨.str _, ?_⟩
  change (if (hexEncode b).length = len * 2 ∧ (hexEncode b).all isLowerHexDigit = true then
    hexDecode (hexEncode b) else none) = some b
  rw [if_pos ⟨by rw [length_hexEncode, hb, Nat.mul_comm], hexEncode_lower b⟩, hexDecode_hexEncode]

/-- 32 bytes as lower-case hex. -/
def hashCodec : Codec F Hash256 where
  write h := .str (hashText h)
  read
    | .str s => if s.length = 64 ∧ s.all isLowerHexDigit = true then some (parseHash s) else none
    | _ => none

theorem hash_keeps (h : Hash256) : (hashCodec (F := F)).Keeps h := by
  refine ⟨.str _, ?_⟩
  change (if (hashText h).length = 64 ∧ (hashText h).all isLowerHexDigit = true then
    some (parseHash (hashText h)) else none) = some h
  rw [if_pos ⟨length_hashText h, hashText_lower h⟩, parseHash_hashText]

/-- `None` as `null`. -/
def optCodec (c : Codec F α) : Codec F (Option α) where
  write
    | none => .null
    | some a => c.write a
  read
    | .null => some none
    | v => (c.read v).map some

theorem opt_keeps {c : Codec F α} (hnull : c.read .null = none) {o : Option α}
    (h : ∀ a ∈ o, c.Keeps a) : (optCodec c).Keeps o := by
  cases o with
  | none => exact ⟨.null, rfl⟩
  | some a =>
    obtain ⟨hint, hread⟩ := h a rfl
    refine ⟨hint, ?_⟩
    have hne : c.write a ≠ .null := by
      intro hc
      rw [hc, hnull] at hread
      cases hread
    change (optCodec c).read (c.write a) = some (some a)
    dsimp only [optCodec]
    split
    · exact absurd ‹_› hne
    · rw [hread]
      rfl

/-- An array, item by item. -/
def listCodec (c : Codec F α) : Codec F (List α) where
  write l := .arr (l.map c.write)
  read
    | .arr items => items.mapM c.read
    | _ => none

theorem mapM_map_some {f : α → β} {g : β → Option α} : ∀ {l : List α},
    (∀ a ∈ l, g (f a) = some a) → (l.map f).mapM g = some l
  | [], _ => rfl
  | a :: l, h => by
    rw [List.map_cons, List.mapM_cons, h a List.mem_cons_self,
      mapM_map_some fun b hb => h b (List.mem_cons_of_mem a hb)]
    rfl

theorem list_keeps {c : Codec F α} {l : List α} (h : ∀ a ∈ l, c.Keeps a) : (listCodec c).Keeps l := by
  constructor
  · apply Integral.arr
    intro v hv
    obtain ⟨a, ha, rfl⟩ := List.mem_map.mp hv
    exact (h a ha).1
  · exact mapM_map_some fun a ha => (h a ha).2

/-- An array of two. -/
def pairCodec (c : Codec F α) : Codec F (α × α) where
  write p := .arr [c.write p.1, c.write p.2]
  read
    | .arr [v, w] => do
      let a ← c.read v
      let b ← c.read w
      some (a, b)
    | _ => none

theorem pair_keeps {c : Codec F α} {p : α × α} (h : c.Keeps p.1) (h' : c.Keeps p.2) :
    (pairCodec c).Keeps p := by
  constructor
  · apply Integral.arr
    intro v hv
    rcases List.mem_cons.mp hv with rfl | hv
    · exact h.1
    · rw [List.mem_singleton] at hv
      rw [hv]
      exact h'.1
  · change (c.read (c.write p.1)).bind (fun a => (c.read (c.write p.2)).bind fun b => some (a, b)) = _
    rw [h.2, h'.2]
    rfl

/-! ### Structs -/

/-- A value's fields: an object's, or an array's items in the order of the names. -/
def structFields (names : List Bytes) : Json F → Option (List (Bytes × Json F))
  | .obj fields => some fields
  | .arr items => if items.length ≤ names.length then some (names.zip items) else none
  | _ => none

/-- An object's fields. -/
def mapFields : Json F → Option (List (Bytes × Json F))
  | .obj fields => some fields
  | _ => none

/-- A field's value; refused when it comes twice. -/
def fieldOnce (key : Bytes) (fields : List (Bytes × Json F)) : Option (Option (Json F)) :=
  match fields.filter fun f => f.1 == key with
  | [] => some none
  | [f] => some (some f.2)
  | _ => none

def required (c : Codec F α) (key : Bytes) (fields : List (Bytes × Json F)) : Option α := do
  let v ← fieldOnce key fields
  v.bind c.read

def defaulted (c : Codec F α) (d : α) (key : Bytes) (fields : List (Bytes × Json F)) : Option α := do
  let v ← fieldOnce key fields
  match v with
  | none => some d
  | some v => c.read v

/-- The fields that are not skipped. -/
def present (fields : List (Bytes × Option (Json F))) : List (Bytes × Json F) :=
  fields.filterMap fun f => f.2.map fun v => (f.1, v)

theorem present_cons (f : Bytes × Option (Json F)) (fields : List (Bytes × Option (Json F))) :
    present (f :: fields) = (f.2.map fun v => (f.1, v)).toList ++ present fields := by
  unfold present
  rw [List.filterMap_cons]
  cases f.2 with
  | none => rfl
  | some v => rfl

theorem filter_absent {key : Bytes} : ∀ {fields : List (Bytes × Option (Json F))},
    key ∉ fields.map Prod.fst → (present fields).filter (fun f => f.1 == key) = []
  | [], _ => rfl
  | f :: fields, h => by
    rw [List.map_cons, List.mem_cons, not_or] at h
    rw [present_cons, List.filter_append, filter_absent h.2, List.append_nil]
    apply List.filter_eq_nil_iff.mpr
    intro x hx
    obtain ⟨w, -, rfl⟩ := Option.map_eq_some_iff.mp (Option.mem_toList.mp hx)
    rw [beq_iff_eq]
    exact fun hc => h.1 hc.symm

theorem filter_present {key : Bytes} {v : Option (Json F)} :
    ∀ {fields : List (Bytes × Option (Json F))}, (fields.map Prod.fst).Nodup → (key, v) ∈ fields →
    (present fields).filter (fun f => f.1 == key) = (v.map fun w => (key, w)).toList
  | [], _, h => absurd h List.not_mem_nil
  | f :: fields, hnodup, h => by
    rw [List.map_cons, List.nodup_cons] at hnodup
    rw [present_cons, List.filter_append]
    rcases List.mem_cons.mp h with rfl | h
    · rw [filter_absent hnodup.1, List.append_nil]
      cases v with
      | none => rfl
      | some w =>
        rw [Option.map_some, Option.toList_some]
        exact List.filter_cons_of_pos (beq_self_eq_true key)
    · have hne : f.1 ≠ key := by
        rintro rfl
        exact hnodup.1 (List.mem_map.mpr ⟨_, h, rfl⟩)
      have hhead : (f.2.map fun v => (f.1, v)).toList.filter (fun f => f.1 == key) = [] := by
        apply List.filter_eq_nil_iff.mpr
        intro x hx
        obtain ⟨w, -, rfl⟩ := Option.map_eq_some_iff.mp (Option.mem_toList.mp hx)
        rw [beq_iff_eq]
        exact hne
      rw [hhead, List.nil_append, filter_present hnodup.2 h]

/-- A field that was written is found once. -/
theorem fieldOnce_present {fields : List (Bytes × Option (Json F))} {key : Bytes}
    {v : Option (Json F)} (hnodup : (fields.map Prod.fst).Nodup) (h : (key, v) ∈ fields) :
    fieldOnce key (present fields) = some v := by
  unfold fieldOnce
  rw [filter_present hnodup h]
  cases v with
  | none => rfl
  | some w => rfl

theorem required_present {c : Codec F α} {fields : List (Bytes × Option (Json F))} {key : Bytes}
    {a : α} (hnodup : (fields.map Prod.fst).Nodup) (h : (key, some (c.write a)) ∈ fields)
    (hc : c.Keeps a) : required c key (present fields) = some a := by
  unfold required
  rw [fieldOnce_present hnodup h]
  exact hc.2

/-- A field with a default that is always written. -/
theorem defaulted_present {c : Codec F α} {d : α} {fields : List (Bytes × Option (Json F))}
    {key : Bytes} {a : α} (hnodup : (fields.map Prod.fst).Nodup)
    (h : (key, some (c.write a)) ∈ fields) (hc : c.Keeps a) :
    defaulted c d key (present fields) = some a := by
  unfold defaulted
  rw [fieldOnce_present hnodup h]
  exact hc.2

/-- An optional field that is skipped when there is nothing in it. -/
theorem defaulted_skipped {c : Codec F α} {fields : List (Bytes × Option (Json F))} {key : Bytes}
    {o : Option α} (hnodup : (fields.map Prod.fst).Nodup) (h : (key, o.map c.write) ∈ fields)
    (hnull : c.read .null = none) (hc : ∀ a ∈ o, c.Keeps a) :
    defaulted (optCodec c) none key (present fields) = some o := by
  unfold defaulted
  rw [fieldOnce_present hnodup h]
  cases o with
  | none => rfl
  | some a => exact (opt_keeps hnull (o := some a) hc).2

theorem integral_present {fields : List (Bytes × Option (Json F))}
    (h : ∀ f ∈ fields, ∀ v ∈ f.2, Integral v) : Integral (.obj (present fields)) := by
  apply Integral.obj
  intro f hf
  obtain ⟨g, hg, hv⟩ := List.mem_filterMap.mp hf
  obtain ⟨v, hsome, rfl⟩ := Option.map_eq_some_iff.mp hv
  exact h g hg v hsome

/-- Fields of other names do not matter. -/
theorem fieldOnce_filter {fields : List (Bytes × Json F)} {key : Bytes} {p : Bytes → Bool}
    (hkey : p key = true) : fieldOnce key (fields.filter fun f => p f.1) = fieldOnce key fields := by
  have hsame : (fields.filter fun f => p f.1).filter (fun f => f.1 == key) =
      fields.filter fun f => f.1 == key := by
    rw [List.filter_filter]
    apply List.filter_congr
    intro f _
    by_cases hf : f.1 = key
    · rw [hf, hkey, Bool.and_true]
    · rw [beq_false_of_ne hf, Bool.false_and]
  unfold fieldOnce
  rw [hsame]

theorem required_filter {c : Codec F α} {fields : List (Bytes × Json F)} {key : Bytes}
    {p : Bytes → Bool} (hkey : p key = true) :
    required c key (fields.filter fun f => p f.1) = required c key fields := by
  unfold required
  rw [fieldOnce_filter hkey]

theorem defaulted_filter {c : Codec F α} {d : α} {fields : List (Bytes × Json F)} {key : Bytes}
    {p : Bytes → Bool} (hkey : p key = true) :
    defaulted c d key (fields.filter fun f => p f.1) = defaulted c d key fields := by
  unfold defaulted
  rw [fieldOnce_filter hkey]

/-- A field's value, if it is written, has no fractional numbers. -/
def Whole (f : Bytes × Option (Json F)) : Prop := ∀ v ∈ f.2, Integral v

theorem whole_some {key : Bytes} {v : Json F} (h : Integral v) : Whole (key, some v) := by
  intro w hw
  rw [← Option.some.inj hw]
  exact h

theorem whole_map {key : Bytes} {c : Codec F α} {o : Option α} (h : ∀ a ∈ o, c.Keeps a) :
    Whole (key, o.map c.write) := by
  intro w hw
  obtain ⟨a, ha, rfl⟩ := Option.map_eq_some_iff.mp hw
  exact (h a ha).1

/-- A struct in a field. -/
def structCodec (names : List Bytes) (fields : α → List (Bytes × Option (Json F)))
    (body : List (Bytes × Json F) → Option α) : Codec F α where
  write a := .obj (present (fields a))
  read v := (structFields names v).bind body

theorem struct_keeps {names : List Bytes} {fields : α → List (Bytes × Option (Json F))}
    {body : List (Bytes × Json F) → Option α} {a : α} (hwhole : ∀ f ∈ fields a, Whole f)
    (hbody : body (present (fields a)) = some a) : (structCodec names fields body).Keeps a :=
  ⟨integral_present hwhole, hbody⟩

/-! ### Tags -/

/-- An enumeration of one text: the text, or an object of it alone. -/
def unitTag (text : Bytes) : Json F → Option Unit
  | .str s => if s = text then some () else none
  | .obj [(k, .null)] => if k = text then some () else none
  | _ => none

/-- A struct with a fixed text in one field. -/
def taggedBy (shape : Json F → Option (List (Bytes × Json F))) (key text : Bytes)
    (body : List (Bytes × Json F) → Option α) (v : Json F) : Option α := do
  let fields ← shape v
  let tag ← fieldOnce key fields
  let _ ← tag.bind (unitTag text)
  body fields

theorem taggedBy_present {shape : Json F → Option (List (Bytes × Json F))} {key text : Bytes}
    {body : List (Bytes × Json F) → Option α} {fields : List (Bytes × Option (Json F))}
    (hshape : ∀ l, shape (.obj l) = some l) (hnodup : (fields.map Prod.fst).Nodup)
    (h : (key, some (.str text)) ∈ fields) :
    taggedBy shape key text body (.obj (present fields)) = body (present fields) := by
  unfold taggedBy
  rw [hshape]
  simp only [Option.bind_eq_bind, Option.bind_some, fieldOnce_present hnodup h]
  rw [unitTag, if_pos rfl]
  rfl

/-- Another text there is refused. -/
theorem taggedBy_other {shape : Json F → Option (List (Bytes × Json F))} {key text text' : Bytes}
    {body : List (Bytes × Json F) → Option α} {fields : List (Bytes × Option (Json F))}
    (hshape : ∀ l, shape (.obj l) = some l) (hnodup : (fields.map Prod.fst).Nodup)
    (h : (key, some (.str text)) ∈ fields) (hne : text ≠ text') :
    taggedBy shape key text' body (.obj (present fields)) = none := by
  unfold taggedBy
  rw [hshape]
  simp only [Option.bind_eq_bind, Option.bind_some, fieldOnce_present hnodup h]
  rw [unitTag, if_neg hne]
  rfl

/-- One of the structs an untagged enumeration tries. -/
structure Shape (F α : Type) where
  shape : Json F → Option (List (Bytes × Json F))
  text : Bytes
  body : List (Bytes × Json F) → Option α

/-- The first struct that reads the value. -/
def readFirst (key : Bytes) (shapes : List (Shape F α)) (v : Json F) : Option α :=
  shapes.findSome? fun s => taggedBy s.shape key s.text s.body v

/-- Where the texts differ, the struct of the value's text reads it. -/
theorem readFirst_present {key : Bytes} {fields : List (Bytes × Option (Json F))} {a : α}
    (hnodup : (fields.map Prod.fst).Nodup) {s : Shape F α} (h : (key, some (.str s.text)) ∈ fields)
    (hbody : s.body (present fields) = some a) : ∀ {shapes : List (Shape F α)},
    (∀ x ∈ shapes, ∀ l, x.shape (.obj l) = some l) → (shapes.map Shape.text).Nodup → s ∈ shapes →
    readFirst key shapes (.obj (present fields)) = some a
  | [], _, _, hs => absurd hs List.not_mem_nil
  | x :: shapes, hshape, htexts, hs => by
    rw [List.map_cons, List.nodup_cons] at htexts
    unfold readFirst
    rw [List.findSome?_cons]
    rcases List.mem_cons.mp hs with rfl | hs
    · rw [taggedBy_present (hshape s List.mem_cons_self) hnodup h, hbody]
    · have hne : s.text ≠ x.text := fun hc => htexts.1 (List.mem_map.mpr ⟨s, hs, hc⟩)
      rw [taggedBy_other (hshape x List.mem_cons_self) hnodup h hne]
      exact readFirst_present hnodup h hbody (fun y hy => hshape y (List.mem_cons_of_mem x hy))
        htexts.2 hs

/-! ### What is read -/

/-- Every value read has the property. -/
def Codec.Gives (c : Codec F α) (P : α → Prop) : Prop := ∀ v a, c.read v = some a → P a

theorem uint_gives (w : ℕ) : (uintCodec (F := F) w).Gives (· < 2 ^ w) := by
  intro v n h
  cases v with
  | posInt m =>
    change (if m.toNat < 2 ^ w then some m.toNat else none) = some n at h
    split at h
    · rw [← Option.some.inj h]
      assumption
    · cases h
  | _ => cases h

theorem hex_gives (len : ℕ) : (hexCodec (F := F) len).Gives (·.length = len) := by
  intro v b h
  cases v with
  | str s =>
    change (if s.length = len * 2 ∧ s.all isLowerHexDigit = true then hexDecode s else none) = some b
      at h
    split at h
    · rename_i hs
      have := length_hexDecode h
      omega
    · cases h
  | _ => cases h

theorem opt_gives {c : Codec F α} {P : α → Prop} (h : c.Gives P) :
    (optCodec c).Gives fun o => ∀ a ∈ o, P a := by
  intro v o ho
  dsimp only [optCodec] at ho
  split at ho
  · rw [← Option.some.inj ho]
    exact fun a ha => by cases ha
  · obtain ⟨b, hb, rfl⟩ := Option.map_eq_some_iff.mp ho
    intro a ha
    rw [← Option.some.inj ha]
    exact h _ _ hb

theorem mapM_mem {f : α → Option β} : ∀ {l : List α} {l' : List β}, l.mapM f = some l' →
    ∀ b ∈ l', ∃ a ∈ l, f a = some b
  | [], l', h, b, hb => by
    rw [List.mapM_nil] at h
    rw [← Option.some.inj h] at hb
    cases hb
  | a :: l, l', h, b, hb => by
    rw [List.mapM_cons] at h
    obtain ⟨c, hc, h⟩ := Option.bind_eq_some_iff.mp h
    obtain ⟨cs, hcs, h⟩ := Option.bind_eq_some_iff.mp h
    rw [← Option.some.inj h] at hb
    rcases List.mem_cons.mp hb with rfl | hb
    · exact ⟨a, List.mem_cons_self, hc⟩
    · obtain ⟨x, hx, hfx⟩ := mapM_mem hcs b hb
      exact ⟨x, List.mem_cons_of_mem a hx, hfx⟩

theorem list_gives {c : Codec F α} {P : α → Prop} (h : c.Gives P) :
    (listCodec c).Gives fun l => ∀ a ∈ l, P a := by
  intro v l hl a ha
  cases v with
  | arr items =>
    obtain ⟨w, -, hw⟩ := mapM_mem (show items.mapM c.read = some l from hl) a ha
    exact h w a hw
  | _ => cases hl

theorem pair_gives {c : Codec F α} {P : α → Prop} (h : c.Gives P) :
    (pairCodec c).Gives fun p => P p.1 ∧ P p.2 := by
  intro v p hp
  dsimp only [pairCodec] at hp
  split at hp
  · obtain ⟨a, ha, hp⟩ := Option.bind_eq_some_iff.mp hp
    obtain ⟨b, hb, hp⟩ := Option.bind_eq_some_iff.mp hp
    rw [← Option.some.inj hp]
    exact ⟨h _ a ha, h _ b hb⟩
  · cases hp

theorem required_gives {c : Codec F α} {P : α → Prop} (h : c.Gives P) {key : Bytes}
    {fields : List (Bytes × Json F)} {a : α} (ha : required c key fields = some a) : P a := by
  obtain ⟨v, -, ha⟩ := Option.bind_eq_some_iff.mp ha
  obtain ⟨w, -, hw⟩ := Option.bind_eq_some_iff.mp ha
  exact h w a hw

theorem defaulted_gives {c : Codec F α} {P : α → Prop} (h : c.Gives P) {d : α} (hd : P d)
    {key : Bytes} {fields : List (Bytes × Json F)} {a : α}
    (ha : defaulted c d key fields = some a) : P a := by
  obtain ⟨v, -, ha⟩ := Option.bind_eq_some_iff.mp ha
  cases v with
  | none =>
    rw [← Option.some.inj ha]
    exact hd
  | some w => exact h w a ha

theorem struct_gives {names : List Bytes} {fields : α → List (Bytes × Option (Json F))}
    {body : List (Bytes × Json F) → Option α} {P : α → Prop}
    (h : ∀ l a, body l = some a → P a) : (structCodec names fields body).Gives P := by
  intro v a ha
  obtain ⟨l, -, hl⟩ := Option.bind_eq_some_iff.mp ha
  exact h l a hl

theorem readFirst_gives {key : Bytes} {shapes : List (Shape F α)} {P : α → Prop}
    (h : ∀ s ∈ shapes, ∀ l a, s.body l = some a → P a) {v : Json F} {a : α}
    (ha : readFirst key shapes v = some a) : P a := by
  obtain ⟨s, hs, ha⟩ := List.exists_of_findSome?_eq_some ha
  obtain ⟨l, -, ha⟩ := Option.bind_eq_some_iff.mp ha
  obtain ⟨tag, -, ha⟩ := Option.bind_eq_some_iff.mp ha
  obtain ⟨_, -, ha⟩ := Option.bind_eq_some_iff.mp ha
  exact h s hs l a ha

end

end Sidestr
