/-
# Positions that are apart

Places of a list are handed out: some are taken already, and each of a list of
wanted values is to have a place of its own that holds it. There are such
places exactly when the list holds every value as often as it is taken and
wanted together (`apart_iff_count`).

Key definitions: `Matching.valuesAt`, `Matching.Apart`.
Key theorems: `Matching.count_valuesAt_le`, `Matching.exists_free`, `Matching.apart_iff_count`.
-/
import Mathlib.Data.List.Perm.Subperm
import Mathlib.Data.List.Range

namespace Matching

variable {α : Type} {L : List α}

/-- What the list holds at some places. -/
def valuesAt (L : List α) (places : List ℕ) : List α := places.filterMap fun i => L[i]?

/-- The wanted values have places of their own, apart from the taken ones. -/
def Apart (L : List α) (taken : List ℕ) (wanted : List α) : Prop :=
  ∃ places : List ℕ, (taken ++ places).Nodup ∧
    List.Forall₂ (fun i a => L[i]? = some a) places wanted

theorem valuesAt_append (p q : List ℕ) : valuesAt L (p ++ q) = valuesAt L p ++ valuesAt L q :=
  List.filterMap_append

theorem valuesAt_of_forall₂ {places : List ℕ} {wanted : List α}
    (h : List.Forall₂ (fun i a => L[i]? = some a) places wanted) : valuesAt L places = wanted := by
  induction h with
  | nil => rfl
  | cons hi _ ih => exact (List.filterMap_cons_some hi).trans (congrArg _ ih)

theorem lt_length_of_forall₂ {places : List ℕ} {wanted : List α}
    (h : List.Forall₂ (fun i a => L[i]? = some a) places wanted) : ∀ i ∈ places, i < L.length := by
  induction h with
  | nil => exact fun i hi => by cases hi
  | cons hj _ ih =>
    intro i hi
    rcases List.mem_cons.mp hi with rfl | hi
    · exact (List.getElem?_eq_some_iff.mp hj).1
    · exact ih i hi

/-- Every place, in order. -/
theorem valuesAt_range (L : List α) : valuesAt L (List.range L.length) = L := by
  induction L with
  | nil => rfl
  | cons a l ih =>
    calc valuesAt (a :: l) (List.range (a :: l).length)
        = a :: valuesAt l (List.range l.length) := by
          unfold valuesAt
          rw [List.length_cons, List.range_succ_eq_map, List.filterMap_cons, List.filterMap_map]
          rfl
      _ = a :: l := by rw [ih]

variable [BEq α] [LawfulBEq α]

omit [LawfulBEq α] in
theorem count_le_of_subperm {p q : List ℕ} (h : p.Subperm q) (a : α) :
    (valuesAt L p).count a ≤ (valuesAt L q).count a := by
  obtain ⟨p', hperm, hsub⟩ := h
  calc (valuesAt L p).count a = (valuesAt L p').count a := ((hperm.filterMap _).count_eq a).symm
    _ ≤ (valuesAt L q).count a := (hsub.filterMap _).count_le a

omit [LawfulBEq α] in
/-- Different places hold a value no more often than the list does. -/
theorem count_valuesAt_le {places : List ℕ} (hnodup : places.Nodup)
    (hin : ∀ i ∈ places, i < L.length) (a : α) : (valuesAt L places).count a ≤ L.count a := by
  have hsub : places.Subperm (List.range L.length) :=
    hnodup.subperm fun i hi => List.mem_range.mpr (hin i hi)
  calc (valuesAt L places).count a ≤ (valuesAt L (List.range L.length)).count a :=
        count_le_of_subperm hsub a
    _ = L.count a := by rw [valuesAt_range]

/-- A value that the list holds more often than the taken places do is at another place. -/
theorem exists_free {taken : List ℕ} {a : α} (h : (valuesAt L taken).count a < L.count a) :
    ∃ i, i ∉ taken ∧ L[i]? = some a := by
  by_contra hnone
  have hall : ∀ i, L[i]? = some a → i ∈ taken := by
    intro i hi
    by_contra hmem
    exact hnone ⟨i, hmem, hi⟩
  have hsub : ((List.range L.length).filter fun i => L[i]? == some a).Subperm taken :=
    List.Nodup.subperm (List.nodup_range.filter _) fun i hi =>
      hall i (by simpa using (List.mem_filter.mp hi).2)
  have hkeep : (valuesAt L ((List.range L.length).filter fun i => L[i]? == some a)).count a =
      (valuesAt L (List.range L.length)).count a := by
    unfold valuesAt
    induction List.range L.length with
    | nil => rfl
    | cons i l ih =>
      by_cases hi : L[i]? = some a
      · rw [List.filter_cons_of_pos (by simpa using hi), List.filterMap_cons_some hi,
          List.filterMap_cons_some hi, List.count_cons_self, List.count_cons_self, ih]
      · rw [List.filter_cons_of_neg (by simpa using hi), ih, List.filterMap_cons]
        cases hb : L[i]? with
        | none => rfl
        | some b =>
          rw [hb, Option.some.injEq] at hi
          exact (List.count_cons_of_ne hi).symm
  have hle := count_le_of_subperm (L := L) hsub a
  rw [hkeep, valuesAt_range] at hle
  omega

/-- **Places apart** exist exactly when the list holds every value often enough. -/
theorem apart_iff_count {taken : List ℕ} (hnodup : taken.Nodup) (hin : ∀ i ∈ taken, i < L.length)
    {wanted : List α} : Apart L taken wanted ↔
      ∀ a, wanted.count a + (valuesAt L taken).count a ≤ L.count a := by
  constructor
  · rintro ⟨places, hall, hheld⟩ a
    have hplaces : ∀ i ∈ taken ++ places, i < L.length := by
      intro i hi
      rcases List.mem_append.mp hi with hi | hi
      · exact hin i hi
      · exact lt_length_of_forall₂ hheld i hi
    have hle := count_valuesAt_le hall hplaces a
    rw [valuesAt_append, List.count_append, valuesAt_of_forall₂ hheld] at hle
    omega
  · intro hcount
    induction wanted generalizing taken with
    | nil => exact ⟨[], by rwa [List.append_nil], .nil⟩
    | cons a wanted ih =>
      have ha := hcount a
      rw [List.count_cons_self] at ha
      obtain ⟨i, hfree, hi⟩ := exists_free (show (valuesAt L taken).count a < L.count a by omega)
      have hone : valuesAt L [i] = [a] := List.filterMap_cons_some hi
      have hnext : (taken ++ [i]).Nodup :=
        (List.perm_append_singleton i taken).nodup_iff.mpr (List.nodup_cons.mpr ⟨hfree, hnodup⟩)
      have hnextin : ∀ j ∈ taken ++ [i], j < L.length := by
        intro j hj
        rcases List.mem_append.mp hj with hj | hj
        · exact hin j hj
        · rw [List.mem_singleton.mp hj]
          exact (List.getElem?_eq_some_iff.mp hi).1
      have hleft : ∀ b, wanted.count b + (valuesAt L (taken ++ [i])).count b ≤ L.count b := by
        intro b
        have hb := hcount b
        rw [valuesAt_append, List.count_append, hone]
        rw [List.count_cons] at hb ⊢
        rw [List.count_nil]
        omega
      obtain ⟨places, hall, hheld⟩ := ih hnext hnextin hleft
      refine ⟨i :: places, ?_, .cons hi hheld⟩
      rwa [List.append_assoc, List.singleton_append] at hall

end Matching
