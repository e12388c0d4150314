/-
# Outcomes of code that can return, refuse or panic

A call of the code ends in one of three ways: it returns a value, it refuses
with an error that its caller sees, or it panics (an index out of range, an
`expect` that does not hold, an overflow where overflow is checked). The
first two are results, the third is not: `Res` keeps them apart, so "this
call never panics" is a statement about a value.

`Res` is a monad whose `bind` stops at the first error or panic. The lemmas
below take a computation apart without unfolding it: what it means for a
bind to return (`bind_eq_ok`), and when it panics (`bind_eq_panic`).

Key definitions: `Res`, `Res.foldlM`.
Key theorems: `Res.bind_eq_ok`, `Res.bind_eq_panic`, `Res.foldlM_ok_ind`.
-/
import Mathlib.Data.List.Basic

/-- What a call ends in: a value, an error the caller sees, or a panic. -/
inductive Res (ε α : Type) where
  | ok (a : α)
  | err (e : ε)
  | panic
  deriving DecidableEq, Repr

namespace Res

variable {ε α β σ : Type}

/-- Run `x`, then `f` on its value; stop at the first error or panic. -/
def bind (x : Res ε α) (f : α → Res ε β) : Res ε β :=
  match x with
  | .ok a => f a
  | .err e => .err e
  | .panic => .panic

instance : Monad (Res ε) where
  pure := .ok
  bind := Res.bind

@[simp] theorem pure_eq (a : α) : (pure a : Res ε α) = .ok a := rfl

@[simp] theorem ok_bind (a : α) (f : α → Res ε β) : (Res.ok a >>= f) = f a := rfl

@[simp] theorem err_bind (e : ε) (f : α → Res ε β) : ((Res.err e : Res ε α) >>= f) = .err e := rfl

@[simp] theorem panic_bind (f : α → Res ε β) : ((Res.panic : Res ε α) >>= f) = .panic := rfl

/-- A bind returns exactly when both of its parts do. -/
theorem bind_eq_ok {x : Res ε α} {f : α → Res ε β} {b : β} :
    (x >>= f) = .ok b ↔ ∃ a, x = .ok a ∧ f a = .ok b := by
  cases x <;> simp

/-- A bind panics when its first part does, or returns into a panic. -/
theorem bind_eq_panic {x : Res ε α} {f : α → Res ε β} :
    (x >>= f) = .panic ↔ x = .panic ∨ ∃ a, x = .ok a ∧ f a = .panic := by
  cases x <;> simp

/-- A bind does not panic when neither of its parts does. -/
theorem bind_ne_panic {x : Res ε α} {f : α → Res ε β} (hx : x ≠ .panic)
    (hf : ∀ a, x = .ok a → f a ≠ .panic) : (x >>= f) ≠ .panic := by
  intro h
  rcases bind_eq_panic.mp h with h | ⟨a, ha, h⟩
  · exact hx h
  · exact hf a ha h

/-- It returned, and a value for which `p` holds. -/
def any (p : α → Bool) : Res ε α → Bool
  | .ok a => p a
  | _ => false

theorem any_eq_true {p : α → Bool} {x : Res ε α} :
    x.any p = true ↔ ∃ a, x = .ok a ∧ p a = true := by
  cases x <;> simp [any]

/-- The value of an option, or a panic: `expect`, and an index into a slice. -/
def expect : Option α → Res ε α
  | some a => .ok a
  | none => .panic

@[simp] theorem expect_some (a : α) : (expect (some a) : Res ε α) = .ok a := rfl

@[simp] theorem expect_none : (expect none : Res ε α) = .panic := rfl

/-- The value of an option, or the error `e`: `ok_or`. -/
def okOr (e : ε) : Option α → Res ε α
  | some a => .ok a
  | none => .err e

@[simp] theorem okOr_some (e : ε) (a : α) : okOr e (some a) = .ok a := rfl

@[simp] theorem okOr_none (e : ε) : (okOr e none : Res ε α) = .err e := rfl

theorem okOr_eq_ok {e : ε} {o : Option α} {a : α} : okOr e o = .ok a ↔ o = some a := by
  cases o <;> simp

theorem okOr_ne_panic (e : ε) (o : Option α) : okOr e o ≠ .panic := by
  cases o <;> simp

/-- Refuse with `e` when the test holds: an early `return Err(e)`. -/
def refuseIf (b : Bool) (e : ε) : Res ε Unit :=
  if b then .err e else .ok ()

theorem refuseIf_eq_ok {b : Bool} {e : ε} {u : Unit} : refuseIf b e = .ok u ↔ b = false := by
  cases b <;> simp [refuseIf]

@[simp] theorem refuseIf_false (e : ε) : refuseIf false e = .ok () := rfl

theorem refuseIf_ne_panic (b : Bool) (e : ε) : refuseIf b e ≠ .panic := by
  cases b <;> simp [refuseIf]

/-- A `for` loop over `l` whose body may refuse or panic. -/
def foldlM (f : σ → α → Res ε σ) : σ → List α → Res ε σ
  | s, [] => .ok s
  | s, a :: l => f s a >>= fun s' => foldlM f s' l

@[simp] theorem foldlM_nil (f : σ → α → Res ε σ) (s : σ) : foldlM f s [] = .ok s := rfl

@[simp] theorem foldlM_cons (f : σ → α → Res ε σ) (s : σ) (a : α) (l : List α) :
    foldlM f s (a :: l) = (f s a >>= fun s' => foldlM f s' l) := rfl

theorem foldlM_append (f : σ → α → Res ε σ) : ∀ (s : σ) (l l' : List α),
    foldlM f s (l ++ l') = (foldlM f s l >>= fun s' => foldlM f s' l')
  | s, [], l' => by simp
  | s, a :: l, l' => by
    simp only [List.cons_append, foldlM_cons]
    cases h : f s a with
    | ok s' => simp [foldlM_append f s' l l']
    | err e => simp
    | panic => simp

/-- **The loop rule.** What the start has and every step keeps, the loop's
result has. -/
theorem foldlM_ok_ind {f : σ → α → Res ε σ} {P : σ → Prop} : ∀ {l : List α} {s t : σ},
    foldlM f s l = .ok t → P s → (∀ s' a s'', a ∈ l → P s' → f s' a = .ok s'' → P s'') → P t
  | [], s, t, h, h0, _ => by
    simp only [foldlM_nil, Res.ok.injEq] at h
    exact h ▸ h0
  | a :: l, s, t, h, h0, hstep => by
    obtain ⟨s', h1, h2⟩ := bind_eq_ok.mp h
    exact foldlM_ok_ind h2 (hstep s a s' List.mem_cons_self h0 h1)
      fun s1 b s2 hb => hstep s1 b s2 (List.mem_cons_of_mem _ hb)

/-- A loop panics at the first iteration that does. -/
theorem foldlM_eq_panic {f : σ → α → Res ε σ} : ∀ {l : List α} {s : σ},
    foldlM f s l = .panic ↔
      ∃ pre a post s', l = pre ++ a :: post ∧ foldlM f s pre = .ok s' ∧ f s' a = .panic
  | [], s => by simp
  | a :: l, s => by
    rw [foldlM_cons, bind_eq_panic]
    constructor
    · rintro (h | ⟨s', h1, h2⟩)
      · exact ⟨[], a, l, s, rfl, rfl, h⟩
      · obtain ⟨pre, b, post, t, rfl, h3, h4⟩ := foldlM_eq_panic.mp h2
        exact ⟨a :: pre, b, post, t, rfl, by simp [h1, h3], h4⟩
    · rintro ⟨pre, b, post, t, hl, h3, h4⟩
      cases pre with
      | nil =>
        simp only [List.nil_append, List.cons.injEq] at hl
        simp only [foldlM_nil, Res.ok.injEq] at h3
        left
        rw [hl.1, h3]
        exact h4
      | cons c pre =>
        simp only [List.cons_append, List.cons.injEq] at hl
        obtain ⟨s', h1, h2⟩ := bind_eq_ok.mp h3
        exact .inr ⟨s', hl.1 ▸ h1, foldlM_eq_panic.mpr ⟨pre, b, post, t, hl.2, h2, h4⟩⟩

/-- A loop whose body always returns. -/
theorem foldlM_returns {f : σ → α → Res ε σ} : ∀ {l : List α} {s : σ},
    (∀ a ∈ l, ∀ s, ∃ s', f s a = .ok s') → ∃ t, foldlM f s l = .ok t
  | [], s, _ => ⟨s, rfl⟩
  | a :: l, s, h => by
    obtain ⟨s', hs'⟩ := h a List.mem_cons_self s
    obtain ⟨t, ht⟩ := foldlM_returns (s := s') fun b hb => h b (List.mem_cons_of_mem _ hb)
    exact ⟨t, by rw [foldlM_cons, hs', ok_bind, ht]⟩

/-- A loop whose body never panics. -/
theorem foldlM_ne_panic {f : σ → α → Res ε σ} (h : ∀ s a, f s a ≠ .panic) {l : List α} {s : σ} :
    foldlM f s l ≠ .panic := by
  intro hp
  obtain ⟨-, a, -, s', -, -, hf⟩ := foldlM_eq_panic.mp hp
  exact h s' a hf

end Res
