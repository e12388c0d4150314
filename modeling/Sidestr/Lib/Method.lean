/-
# Methods that may fail part way

A method works on a state and ends as any call does (`Res`); what it has
changed when it refuses or panics stays changed. `Method` keeps the state
beside the outcome, so "a refused call leaves the state as it was" is a
statement about a method and not true of every one.

A bind is taken apart by how its first part ends (`bind_cases`): it stopped
there, or the rest ran on the state it left.

Key definitions: `Method`, `Method.ofRes`, `Method.read`, `Method.Within`.
Key theorems: `Method.bind_cases`, `Method.read_bind_cases`, `Method.attempt_bind_cases`,
`Method.Within.bind`.
-/
import Sidestr.Lib.Outcome

/-- A call on a state: the state it leaves, and what it ends in. -/
def Method (ε σ α : Type) := σ → σ × Res ε α

namespace Method

variable {ε σ α β : Type}

def bind (x : Method ε σ α) (f : α → Method ε σ β) : Method ε σ β := fun s =>
  match x s with
  | (s', .ok a) => f a s'
  | (s', .err e) => (s', .err e)
  | (s', .panic) => (s', .panic)

instance : Monad (Method ε σ) where
  pure a := fun s => (s, .ok a)
  bind := Method.bind

/-- The state, read. -/
def get : Method ε σ σ := fun s => (s, .ok s)

def modify (g : σ → σ) : Method ε σ Unit := fun s => (g s, .ok ())

/-- A call that changes nothing. -/
def ofRes (x : Res ε α) : Method ε σ α := fun s => (s, x)

/-- A call that reads the state and changes nothing. -/
def read (x : σ → Res ε α) : Method ε σ α := fun s => (s, x s)

/-- A call that comes back with its state, refused or not. -/
def ofState (f : σ → Res ε (σ × Except ε α)) : Method ε σ α := fun s =>
  match f s with
  | .ok (s', .ok a) => (s', .ok a)
  | .ok (s', .error e) => (s', .err e)
  | .err e => (s, .err e)
  | .panic => (s, .panic)

/-- A call whose refusal the rest goes on from. -/
def attempt (x : Method ε σ α) : Method ε σ (Except ε α) := fun s =>
  match x s with
  | (s', .ok a) => (s', .ok (.ok a))
  | (s', .err e) => (s', .ok (.error e))
  | (s', .panic) => (s', .panic)

/-- Whatever it ends in, it moves the state only by `R`. -/
def Within (R : σ → σ → Prop) (x : Method ε σ α) : Prop := ∀ s, R s (x s).1

@[simp] theorem pure_run (a : α) (s : σ) : (pure a : Method ε σ α) s = (s, .ok a) := rfl

@[simp] theorem get_bind (f : σ → Method ε σ β) (s : σ) : (get >>= f) s = f s s := rfl

@[simp] theorem modify_run (g : σ → σ) (s : σ) : (modify g : Method ε σ Unit) s = (g s, .ok ()) := rfl

@[simp] theorem modify_bind (g : σ → σ) (f : Unit → Method ε σ β) (s : σ) :
    (modify g >>= f) s = f () (g s) := rfl

@[simp] theorem ofRes_ok_bind (a : α) (f : α → Method ε σ β) (s : σ) :
    (ofRes (.ok a) >>= f) s = f a s := rfl

theorem read_bind (x : σ → Res ε α) (f : α → Method ε σ β) (s : σ) :
    (read x >>= f) s = (ofRes (x s) >>= f) s := rfl

theorem bind_ok {x : Method ε σ α} {f : α → Method ε σ β} {s s' : σ} {a : α}
    (h : x s = (s', .ok a)) : (x >>= f) s = f a s' := by
  change Method.bind x f s = _
  unfold Method.bind
  rw [h]

theorem bind_err {x : Method ε σ α} {f : α → Method ε σ β} {s s' : σ} {e : ε}
    (h : x s = (s', .err e)) : (x >>= f) s = (s', .err e) := by
  change Method.bind x f s = _
  unfold Method.bind
  rw [h]

theorem bind_panic {x : Method ε σ α} {f : α → Method ε σ β} {s s' : σ}
    (h : x s = (s', .panic)) : (x >>= f) s = (s', .panic) := by
  change Method.bind x f s = _
  unfold Method.bind
  rw [h]

/-- A bind depends on its first part only by what it does on the state. -/
theorem bind_congr_run {x y : Method ε σ α} {f : α → Method ε σ β} {s : σ} (h : x s = y s) :
    (x >>= f) s = (y >>= f) s := by
  change Method.bind x f s = Method.bind y f s
  unfold Method.bind
  rw [h]

/-- A bind stopped where its first part did, or ran the rest where that left it. -/
theorem bind_cases {x : Method ε σ α} {f : α → Method ε σ β} {s s' : σ} {r : Res ε β}
    (h : (x >>= f) s = (s', r)) :
    (∃ s₁ a, x s = (s₁, .ok a) ∧ f a s₁ = (s', r)) ∨
      (∃ e, x s = (s', .err e) ∧ r = .err e) ∨ (x s = (s', .panic) ∧ r = .panic) := by
  change Method.bind x f s = (s', r) at h
  unfold Method.bind at h
  split at h
  · rename_i s₁ a hx
    exact .inl ⟨s₁, a, hx, h⟩
  · rename_i s₁ e hx
    cases h
    exact .inr (.inl ⟨e, hx, rfl⟩)
  · rename_i s₁ hx
    cases h
    exact .inr (.inr ⟨hx, rfl⟩)

/-- A call that changes nothing, and then the rest if it returned. -/
theorem read_bind_cases {x : σ → Res ε α} {f : α → Method ε σ β} {s s' : σ} {r : Res ε β}
    (h : (read x >>= f) s = (s', r)) :
    (∃ a, x s = .ok a ∧ f a s = (s', r)) ∨
      (s' = s ∧ (∀ b, r ≠ .ok b) ∧ ∀ a, x s ≠ .ok a) := by
  change Method.bind (read x) f s = (s', r) at h
  unfold Method.bind read at h
  cases hx : x s with
  | ok a =>
    rw [hx] at h
    exact .inl ⟨a, rfl, h⟩
  | err e =>
    rw [hx] at h
    cases h
    exact .inr ⟨rfl, fun b hb => (by cases hb), fun a ha => by cases ha⟩
  | panic =>
    rw [hx] at h
    cases h
    exact .inr ⟨rfl, fun b hb => (by cases hb), fun a ha => by cases ha⟩

theorem ofRes_bind_cases {x : Res ε α} {f : α → Method ε σ β} {s s' : σ} {r : Res ε β}
    (h : (ofRes x >>= f) s = (s', r)) :
    (∃ a, x = .ok a ∧ f a s = (s', r)) ∨ (s' = s ∧ (∀ b, r ≠ .ok b) ∧ ∀ a, x ≠ .ok a) :=
  read_bind_cases (x := fun _ => x) h

/-- The rest after an attempt runs on what the attempt left, refused or not. -/
theorem attempt_bind_cases {x : Method ε σ α} {f : Except ε α → Method ε σ β} {s s' : σ}
    {r : Res ε β} (h : (attempt x >>= f) s = (s', r)) :
    (∃ s₁ a, x s = (s₁, .ok a) ∧ f (.ok a) s₁ = (s', r)) ∨
      (∃ s₁ e, x s = (s₁, .err e) ∧ f (.error e) s₁ = (s', r)) ∨ (x s = (s', .panic) ∧ r = .panic) := by
  change Method.bind (attempt x) f s = (s', r) at h
  unfold Method.bind attempt at h
  rcases hx : x s with ⟨s₁, ⟨a⟩ | ⟨e⟩ | -⟩
  · rw [hx] at h
    exact .inl ⟨s₁, a, rfl, h⟩
  · rw [hx] at h
    exact .inr (.inl ⟨s₁, e, rfl, h⟩)
  · rw [hx] at h
    cases h
    exact .inr (.inr ⟨rfl, rfl⟩)

/-- A rest that changes nothing leaves the state of the first part. -/
theorem bind_fst {x : Method ε σ α} {f : α → Method ε σ β} {s s' : σ} {r : Res ε α}
    (h : x s = (s', r)) (hf : ∀ a s, (f a s).1 = s) : ((x >>= f) s).1 = s' := by
  change (Method.bind x f s).1 = s'
  unfold Method.bind
  rw [h]
  cases r with
  | ok a => exact hf a s'
  | err e => rfl
  | panic => rfl

/-! ### What a method moves -/

section

variable {R : σ → σ → Prop}

theorem Within.read (hrefl : ∀ s, R s s) (x : σ → Res ε α) : Within R (read x) := hrefl

theorem Within.ofRes (hrefl : ∀ s, R s s) (x : Res ε α) : Within R (ofRes x : Method ε σ α) := hrefl

theorem Within.pure (hrefl : ∀ s, R s s) (a : α) : Within R (Pure.pure a : Method ε σ α) := hrefl

theorem Within.get (hrefl : ∀ s, R s s) : Within R (get : Method ε σ σ) := hrefl

theorem Within.attempt {x : Method ε σ α} (h : Within R x) : Within R x.attempt := by
  intro s
  have hx := h s
  unfold Method.attempt
  split <;> simpa [*] using hx

/-- A bind moves as its parts do, the rest on what the first part returned. -/
theorem Within.bind_ok (htrans : ∀ a b c, R a b → R b c → R a c) {x : Method ε σ α}
    {f : α → Method ε σ β} (hx : Within R x)
    (hf : ∀ s s₁ a, x s = (s₁, .ok a) → R s₁ (f a s₁).1) : Within R (x >>= f) := by
  intro s
  have hfirst := hx s
  rcases hrun : (x >>= f) s with ⟨s', r⟩
  rcases bind_cases hrun with ⟨s₁, a, h₁, h₂⟩ | ⟨e, h₁, -⟩ | ⟨h₁, -⟩
  · have hrest := hf s s₁ a h₁
    rw [h₁] at hfirst
    rw [h₂] at hrest
    exact htrans _ _ _ hfirst hrest
  · rw [h₁] at hfirst
    exact hfirst
  · rw [h₁] at hfirst
    exact hfirst

theorem Within.bind (htrans : ∀ a b c, R a b → R b c → R a c) {x : Method ε σ α}
    {f : α → Method ε σ β} (hx : Within R x) (hf : ∀ a, Within R (f a)) : Within R (x >>= f) := by
  intro s
  have hfirst := hx s
  rcases hrun : (x >>= f) s with ⟨s', r⟩
  rcases bind_cases hrun with ⟨s₁, a, h₁, h₂⟩ | ⟨e, h₁, -⟩ | ⟨h₁, -⟩
  · rw [h₁] at hfirst
    have hrest := hf a s₁
    rw [h₂] at hrest
    exact htrans _ _ _ hfirst hrest
  · rw [h₁] at hfirst
    exact hfirst
  · rw [h₁] at hfirst
    exact hfirst

end

end Method
