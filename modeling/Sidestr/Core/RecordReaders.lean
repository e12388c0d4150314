/-
# The two record readers

The record grammar is read twice. `recordText` (`records.rs`) is what the
asset, pool and market rules classify by; `Marker.recordText` (`marker.rs`) is
the reader the specification documents, which drops one leading byte-order
mark as the reference does. Each gives the text of a minimal push of 1 to 255
bytes; they part on a push that begins with the mark, which the first keeps,
and on the empty push, which the second reads as the empty text.

Key definitions: `Marker.recordText`.
Key theorems: `recordText_opReturn`, `Marker.recordText_opReturn`, `record_readers_agree_iff`.
-/
import Sidestr.Core.Records

namespace Sidestr

/-- The text of an `OP_RETURN` output that is one minimal push of at most 255
bytes of UTF-8, a leading byte-order mark dropped. -/
def Marker.recordText (spk : Bytes) : Option Bytes :=
  match spk with
  | op :: n :: data =>
    if op ≠ 0x6a then none
    else if n = 0x4c then
      match data with
      | [] => none
      | n :: data =>
        if n.toNat ≤ 75 then none
        else if data.length = n.toNat then markerText data else none
    else if 75 < n.toNat then none
    else if data.length = n.toNat then markerText data else none
  | _ => none

/-- The byte-order mark of UTF-8. -/
def byteOrderMark : Bytes := [0xef, 0xbb, 0xbf]

/-! ### The mark -/

/-- A mark before a text is a character of its own. -/
theorem utf8Valid_mark (text : Bytes) : utf8Valid (byteOrderMark ++ text) = utf8Valid text := by
  rw [utf8Valid.eq_def]
  simp [byteOrderMark, isCont]

/-- A push read as it is and read without its mark: one text exactly when no
valid text follows a mark. -/
theorem text_eq_markerText_iff (d : Bytes) :
    (if utf8Valid d = true then some d else none) = markerText d ↔
      ∀ text, utf8Valid text = true → d ≠ byteOrderMark ++ text := by
  unfold markerText withoutBom
  cases hstrip : stripPrefix [0xef, 0xbb, 0xbf] d with
  | none =>
    refine Iff.intro ?_ fun _ => rfl
    rintro - text - rfl
    rw [byteOrderMark, stripPrefix_append] at hstrip
    simp at hstrip
  | some rest =>
    have hd : d = byteOrderMark ++ rest := eq_append_of_stripPrefix hstrip
    rw [Option.getD_some, hd, utf8Valid_mark]
    by_cases hvalid : utf8Valid rest = true
    · rw [if_pos hvalid, if_pos hvalid]
      constructor
      · intro heq
        have hlen := congrArg List.length (Option.some.inj heq)
        simp only [byteOrderMark, List.length_append, List.length_cons, List.length_nil] at hlen
        omega
      · intro hall
        exact absurd rfl (hall rest hvalid)
    · rw [if_neg hvalid, if_neg hvalid]
      refine Iff.intro (fun _ text htext heq => ?_) fun _ => rfl
      rw [List.append_cancel_left heq] at hvalid
      exact hvalid htext

/-! ### Minimal pushes -/

theorem recordText_opReturn {d : Bytes} (h1 : 1 ≤ d.length) (h255 : d.length ≤ 255) :
    recordText (opReturn d) = if utf8Valid d = true then some d else none := by
  have hlen : (UInt8.ofNat d.length).toNat = d.length := by
    rw [UInt8.toNat_ofNat']
    omega
  unfold opReturn
  dsimp only
  by_cases h75 : d.length ≤ 75
  · rw [if_pos h75]
    unfold recordText
    dsimp only
    rw [if_neg (by simp), hlen, if_pos ⟨h1, h75⟩]
    simp
  · rw [if_neg h75, if_pos h255]
    unfold recordText
    dsimp only
    rw [if_neg (by simp), if_neg (by decide), if_pos rfl, hlen, if_neg h75]
    simp [maxRecord, h255]

theorem Marker.recordText_opReturn {d : Bytes} (h255 : d.length ≤ 255) :
    Marker.recordText (opReturn d) = markerText d := by
  have hlen : (UInt8.ofNat d.length).toNat = d.length := by
    rw [UInt8.toNat_ofNat']
    omega
  unfold opReturn
  dsimp only
  by_cases h75 : d.length ≤ 75
  · have hne : UInt8.ofNat d.length ≠ 0x4c := by
      intro he
      rw [he] at hlen
      change 76 = d.length at hlen
      omega
    rw [if_pos h75]
    unfold Marker.recordText
    dsimp only
    rw [if_neg (by simp), if_neg hne, hlen, if_neg (by omega), if_pos rfl]
  · rw [if_neg h75, if_pos h255]
    unfold Marker.recordText
    dsimp only
    rw [if_neg (by simp), if_pos rfl, hlen, if_neg h75, if_pos rfl]

/-- A script neither reader takes, or a minimal push, or the empty one. -/
theorem record_script_cases (script : Bytes) :
    (recordText script = none ∧ Marker.recordText script = none) ∨ script = [0x6a, 0x00] ∨
      ∃ d : Bytes, 1 ≤ d.length ∧ d.length ≤ 255 ∧ script = opReturn d := by
  rcases script with _ | ⟨op, _ | ⟨n, data⟩⟩
  · exact .inl ⟨rfl, rfl⟩
  · exact .inl ⟨rfl, rfl⟩
  · by_cases hop : op = 0x6a
    case neg => exact .inl ⟨by simp [recordText, hop], by simp [Marker.recordText, hop]⟩
    subst hop
    have hn : UInt8.ofNat n.toNat = n := UInt8.ofNat_toNat
    by_cases hdirect : 1 ≤ n.toNat ∧ n.toNat ≤ 75
    · have hne : n ≠ 0x4c := by
        rintro rfl
        exact absurd hdirect.2 (by decide)
      by_cases hlen : data.length = n.toNat
      · refine .inr (.inr ⟨data, by omega, by omega, ?_⟩)
        unfold opReturn
        dsimp only
        rw [if_pos (by omega), hlen, hn]
      · exact .inl ⟨by simp [recordText, hdirect, hlen],
          by simp [Marker.recordText, hne, hlen]⟩
    · by_cases hpush : n = 0x4c
      · subst hpush
        rcases data with _ | ⟨m, data⟩
        · exact .inl ⟨rfl, rfl⟩
        · have hm : UInt8.ofNat m.toNat = m := UInt8.ofNat_toNat
          have hmlt := m.toNat_lt
          by_cases h75 : m.toNat ≤ 75
          · exact .inl ⟨by simp [recordText, h75], by simp [Marker.recordText, h75]⟩
          · by_cases hlen : data.length = m.toNat
            · refine .inr (.inr ⟨data, by omega, by omega, ?_⟩)
              unfold opReturn
              dsimp only
              rw [if_neg (by omega), if_pos (by omega), hlen, hm]
            · exact .inl ⟨by simp [recordText, hlen], by simp [Marker.recordText, hlen]⟩
      · by_cases hzero : n.toNat = 0
        · have hn0 : n = 0 := UInt8.toNat_inj.mp hzero
          subst hn0
          by_cases hnil : data = []
          · rw [hnil]
            exact .inr (.inl rfl)
          · refine .inl ⟨by simp [recordText], ?_⟩
            simp [Marker.recordText, hnil]
        · refine .inl ⟨by simp [recordText, hdirect, hpush], ?_⟩
          simp only [Marker.recordText, hpush]
          rw [if_neg (by simp), if_neg (by simp), if_pos (by omega)]

/-- **Where the two readers agree**: on every script but the empty push and the
minimal push of a mark and a text after it. -/
theorem record_readers_agree_iff (script : Bytes) :
    recordText script = Marker.recordText script ↔ script ≠ [0x6a, 0x00] ∧
      ∀ text, utf8Valid text = true → text.length ≤ 252 →
        script ≠ opReturn (byteOrderMark ++ text) := by
  constructor
  · intro heq
    refine ⟨?_, ?_⟩
    · rintro rfl
      exact absurd heq (by decide)
    · rintro text hvalid hlen rfl
      have hmark : (byteOrderMark ++ text).length = text.length + 3 := by
        rw [List.length_append, Nat.add_comm]
        rfl
      rw [recordText_opReturn (by omega) (by omega), Marker.recordText_opReturn (by omega)] at heq
      exact (text_eq_markerText_iff _).mp heq text hvalid rfl
  · rintro ⟨hempty, hmark⟩
    rcases record_script_cases script with ⟨hl, hr⟩ | rfl | ⟨d, h1, h255, rfl⟩
    · rw [hl, hr]
    · exact absurd rfl hempty
    · rw [recordText_opReturn h1 h255, Marker.recordText_opReturn h255]
      refine (text_eq_markerText_iff d).mpr fun text hvalid hd => ?_
      refine hmark text hvalid ?_ (congrArg opReturn hd)
      have hlen := congrArg List.length hd
      rw [List.length_append] at hlen
      have hthree : byteOrderMark.length = 3 := rfl
      omega

/-- A mark before an issue: one reader keeps it, the other drops it. -/
theorem record_readers_marked_issue : ¬ ∀ script, recordText script = Marker.recordText script :=
  fun hall => absurd (hall (opReturn (byteOrderMark ++ issueTag ++ [0x58, 0x3a, 0x30])))
    (by decide)

end Sidestr
