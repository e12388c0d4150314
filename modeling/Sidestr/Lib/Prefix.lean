/-
# Prefix codes

An encoding whose values can be told apart at the front of a longer string:
`Prefixed P f` says that two strings that start with the codes of two values
in `P` and are equal start with one value's code, and go on equally. Codes of
one length are such when they are injective, such codes follow one another in
a pair, and a list of them, none empty, is read back.

Key definitions: `Prefixed`.
Key theorems: `Prefixed.of_length`, `Prefixed.pair`, `Prefixed.flatMap_inj`.
-/
import Mathlib.Data.List.Basic

variable {α β γ : Type}

/-- Codes of values in `P` are told apart whatever follows them. -/
def Prefixed (P : α → Prop) (f : α → List γ) : Prop :=
  ∀ a b r s, P a → P b → f a ++ r = f b ++ s → a = b ∧ r = s

namespace Prefixed

/-- Injective codes of one length. -/
theorem of_length {P : α → Prop} {f : α → List γ} (n : ℕ) (hlen : ∀ a, (f a).length = n)
    (hinj : ∀ a b, P a → P b → f a = f b → a = b) : Prefixed P f := by
  intro a b r s ha hb h
  obtain ⟨hcode, hrest⟩ := List.append_inj h ((hlen a).trans (hlen b).symm)
  exact ⟨hinj a b ha hb hcode, hrest⟩

/-- One code after another. -/
theorem pair {P : α → Prop} {Q : β → Prop} {f : α → List γ} {g : β → List γ} (hf : Prefixed P f)
    (hg : Prefixed Q g) : Prefixed (fun x : α × β => P x.1 ∧ Q x.2) fun x => f x.1 ++ g x.2 := by
  intro a b r s ha hb h
  rw [List.append_assoc, List.append_assoc] at h
  obtain ⟨h1, hrest⟩ := hf _ _ _ _ ha.1 hb.1 h
  obtain ⟨h2, hrest⟩ := hg _ _ _ _ ha.2 hb.2 hrest
  exact ⟨Prod.ext h1 h2, hrest⟩

theorem inj {P : α → Prop} {f : α → List γ} (h : Prefixed P f) {a b : α} (ha : P a) (hb : P b)
    (heq : f a = f b) : a = b :=
  (h a b [] [] ha hb (by rw [heq])).1

/-- A list of codes, none of them empty, is read back. -/
theorem flatMap_inj {P : α → Prop} {f : α → List γ} (h : Prefixed P f)
    (hne : ∀ a, f a ≠ []) : ∀ {l l' : List α}, (∀ a ∈ l, P a) → (∀ a ∈ l', P a) →
    l.flatMap f = l'.flatMap f → l = l'
  | [], [], _, _, _ => rfl
  | [], b :: l', _, _, heq => by
    rw [List.flatMap_nil, List.flatMap_cons] at heq
    exact absurd (List.append_eq_nil_iff.mp heq.symm).1 (hne b)
  | a :: l, [], _, _, heq => by
    rw [List.flatMap_nil, List.flatMap_cons] at heq
    exact absurd (List.append_eq_nil_iff.mp heq).1 (hne a)
  | a :: l, b :: l', hl, hl', heq => by
    rw [List.flatMap_cons, List.flatMap_cons] at heq
    obtain ⟨rfl, hrest⟩ := h a b _ _ (hl a List.mem_cons_self) (hl' b List.mem_cons_self) heq
    rw [flatMap_inj h hne (fun c hc => hl c (List.mem_cons_of_mem a hc))
      (fun c hc => hl' c (List.mem_cons_of_mem a hc)) hrest]

end Prefixed
