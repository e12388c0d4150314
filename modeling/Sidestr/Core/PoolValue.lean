/-
# The value behind a share

What a pool holds for each share is measured by the product of its two
reserves over the square of its shares. No transition that `checkTransition`
accepts lowers it: a swap keeps the product, an add mints no more than either
reserve grew by, a remove takes no more of either reserve than its part of the
shares. In whole numbers, `x * y * s'² ≤ x' * y' * s²`, whatever the floor
divisions cut off.

Over a run of transitions the same holds between its ends. A pool whose shares
are gone only swaps, since an add to it has a cap of no shares; and so the
zero it leaves in the middle does not break the chain.

Key definitions: `InBounds`, `transitionValues`, `Transitions`.
Key theorems: `checkTransition_ok`, `value_per_share_kept`, `Transitions.value_kept`.
-/
import Sidestr.Core.Pool
import Mathlib.Tactic.Ring

namespace Sidestr

/-- What a pool's fields are bounded by: the money there is, the largest
amount of a tally, a 64-bit count of shares. -/
structure InBounds (sats assets shares : ℕ) : Prop where
  sats : 1 ≤ sats ∧ sats ≤ 2100000000000000
  assets : 1 ≤ assets ∧ assets ≤ maxAmount
  shares : shares < 2 ^ 64

/-- The 128-bit values `checkTransition` computes, in order: the terms of the
swap, or of the add, or of the remove, each before it is compared or divided. -/
def transitionValues (before : Pool) (sats assets shares : ℕ) : List ℕ :=
  let (x, y, s) := (before.sats, before.assets, before.shares)
  let (x2, y2, s2) := (sats, assets, shares)
  if s2 = s then
    let dx := x2 - x
    let dy := y2 - y
    [dx, dy, 1000 * x2, 3 * dx, 1000 * x2 - 3 * dx, 1000 * y2, 3 * dy, 1000 * y2 - 3 * dy,
      (1000 * x2 - 3 * dx) * (1000 * y2 - 3 * dy), 1000000 * x, 1000000 * x * y]
  else if s < s2 then
    [x2 - x, (x2 - x) * s, (x2 - x) * s / x, y2 - y, (y2 - y) * s, (y2 - y) * s / y, s2 - s]
  else
    [s - s2, x - x2, x * (s - s2), x * (s - s2) / s, y - y2, y * (s - s2), y * (s - s2) / s]

/-! ### What each branch accepts -/

/-- The three kinds of transition. -/
inductive Transition (x y s x2 y2 s2 : ℕ) : Prop
  | swap : s2 = s → 1000000 * x * y ≤
      (1000 * x2 - 3 * (x2 - x)) * (1000 * y2 - 3 * (y2 - y)) → Transition x y s x2 y2 s2
  | add : s < s2 → s2 * x ≤ x2 * s → s2 * y ≤ y2 * s → Transition x y s x2 y2 s2
  | remove : s2 < s → x * s2 ≤ x2 * s → y * s2 ≤ y2 * s → Transition x y s x2 y2 s2

/-- An amount within a floor division is within the division. -/
theorem mul_le_of_le_div {a b c : ℕ} (h : a ≤ b / c) : a * c ≤ b :=
  (Nat.mul_le_mul_right c h).trans (Nat.div_mul_le_self b c)

/-- Shares added within the cap of one reserve. -/
theorem add_within {x x2 s s2 : ℕ} (hx : x ≤ x2) (hs : s < s2) (h : s2 - s ≤ (x2 - x) * s / x) :
    s2 * x ≤ x2 * s := by
  have hmul := mul_le_of_le_div h
  obtain ⟨d, rfl⟩ := Nat.exists_eq_add_of_le hx
  obtain ⟨e, rfl⟩ := Nat.exists_eq_add_of_lt hs
  rw [Nat.add_sub_cancel_left] at hmul
  have hsub : s + e + 1 - s = e + 1 := by omega
  rw [hsub] at hmul
  calc (s + e + 1) * x = s * x + (e + 1) * x := by ring
    _ ≤ s * x + d * s := Nat.add_le_add_left hmul _
    _ = (x + d) * s := by ring

/-- A reserve taken within the destroyed shares' part. -/
theorem remove_within {x x2 s s2 : ℕ} (hx : x2 ≤ x) (hs : s2 < s) (h : x - x2 ≤ x * (s - s2) / s) :
    x * s2 ≤ x2 * s := by
  have hmul := mul_le_of_le_div h
  obtain ⟨d, rfl⟩ := Nat.exists_eq_add_of_le hx
  obtain ⟨e, rfl⟩ := Nat.exists_eq_add_of_lt hs
  have hsub : s2 + e + 1 - s2 = e + 1 := by omega
  rw [Nat.add_sub_cancel_left, hsub] at hmul
  have hexpand : d * (s2 + e + 1) + (x2 + d) * s2 ≤ (x2 + d) * (e + 1) + (x2 + d) * s2 :=
    Nat.add_le_add_right hmul _
  have hright : (x2 + d) * (e + 1) + (x2 + d) * s2 = x2 * (s2 + e + 1) + d * (s2 + e + 1) := by ring
  omega

/-- The products of a swap fit 128 bits. -/
theorem not_swapOverflows {before : Pool} {sats assets : ℕ} {shares : ℕ}
    (hb : InBounds before.sats before.assets before.shares) (ha : InBounds sats assets shares) :
    ¬ swapOverflows before sats assets := by
  have hleft : (1000 * sats - 3 * (sats - before.sats)) *
      (1000 * assets - 3 * (assets - before.assets)) ≤
      1000 * 2100000000000000 * (1000 * maxAmount) := by
    refine Nat.mul_le_mul ?_ ?_
    · have := ha.sats.2
      omega
    · have := ha.assets.2
      omega
  have hright : 1000000 * before.sats * before.assets ≤ 1000000 * 2100000000000000 * maxAmount :=
    Nat.mul_le_mul (Nat.mul_le_mul_left _ hb.sats.2) hb.assets.2
  have hmax : maxAmount = 2 ^ 53 - 1 := rfl
  rw [hmax] at hleft hright
  rintro (h | h)
  · omega
  · omega

theorem InBounds.ok {p : Pool} (h : InBounds p.sats p.assets p.shares) : p.Ok := by
  have hmax : Word.maxVal 64 = 2 ^ 64 - 1 := rfl
  have hamount : maxAmount = 2 ^ 53 - 1 := rfl
  have hs := h.sats
  have ha := h.assets
  have hsh := h.shares
  exact ⟨⟨hs.1, by omega⟩, ⟨ha.1, by omega⟩, by omega⟩

/-- **What an accepted transition is.** -/
theorem checkTransition_ok {checks : Bool} {before : Pool} {sats assets shares : ℕ}
    (hb : InBounds before.sats before.assets before.shares) (ha : InBounds sats assets shares)
    (h : checkTransition checks before sats assets shares = .ok ()) :
    Transition before.sats before.assets before.shares sats assets shares := by
  have hmax : Word.maxVal 64 = 2 ^ 64 - 1 := rfl
  have hamount : maxAmount = 2 ^ 53 - 1 := rfl
  have hbok := hb.ok
  have hfits := not_swapOverflows hb ha
  have hsats := ha.sats
  have hassets := ha.assets
  have hshares := ha.shares
  have hwide : ∀ a b, a ≤ Word.maxVal 64 → b ≤ Word.maxVal 64 → mulWide checks a b = .ok (a * b) :=
    fun _ _ => mulWide_ok checks
  simp only [checkTransition] at h
  by_cases hsame : shares = before.shares
  · rw [if_pos hsame] at h
    unfold swapOverflows at hfits
    rw [not_or, not_le, not_le] at hfits
    have hl : mulWide checks (1000 * sats - 3 * (sats - before.sats))
        (1000 * assets - 3 * (assets - before.assets)) = .ok _ := if_pos hfits.1
    have hr : mulWide checks (1000000 * before.sats) before.assets = .ok _ := if_pos hfits.2
    rw [hl, Res.ok_bind, hr, Res.ok_bind, Res.refuseIf_eq_ok, decide_eq_false_iff_not, not_lt] at h
    exact .swap hsame h
  · rw [if_neg hsame] at h
    by_cases hadd : before.shares < shares
    · rw [if_pos hadd] at h
      obtain ⟨_, hgrow, h⟩ := Res.bind_eq_ok.mp h
      rw [Res.refuseIf_eq_ok, Bool.or_eq_false_iff, decide_eq_false_iff_not, decide_eq_false_iff_not,
        not_lt, not_lt] at hgrow
      have hx0 : before.sats ≠ 0 := by have := hb.sats.1; omega
      have hy0 : before.assets ≠ 0 := by have := hb.assets.1; omega
      rw [hwide _ _ (by omega) hbok.shares, Res.ok_bind, divWide, if_neg hx0, Res.ok_bind,
        hwide _ _ (by omega) hbok.shares, Res.ok_bind, divWide, if_neg hy0, Res.ok_bind,
        Res.refuseIf_eq_ok, decide_eq_false_iff_not, not_lt, le_min_iff] at h
      exact .add hadd (add_within hgrow.1 hadd h.1) (add_within hgrow.2 hadd h.2)
    · rw [if_neg hadd] at h
      obtain ⟨_, hshrink, h⟩ := Res.bind_eq_ok.mp h
      rw [Res.refuseIf_eq_ok, Bool.or_eq_false_iff, decide_eq_false_iff_not, decide_eq_false_iff_not,
        not_lt, not_lt] at hshrink
      have hremove : shares < before.shares := by omega
      have hs0 : before.shares ≠ 0 := by omega
      have hbs := hbok.shares
      rw [hwide _ _ hbok.sats.2 (by omega), Res.ok_bind, divWide, if_neg hs0, Res.ok_bind] at h
      obtain ⟨_, htake, h⟩ := Res.bind_eq_ok.mp h
      rw [hwide _ _ hbok.assets.2 (by omega), Res.ok_bind, divWide, if_neg hs0, Res.ok_bind,
        Res.refuseIf_eq_ok, decide_eq_false_iff_not, not_lt] at h
      rw [Res.refuseIf_eq_ok, decide_eq_false_iff_not, not_lt] at htake
      exact .remove hremove (remove_within hshrink.1 hremove htake)
        (remove_within hshrink.2 hremove h)

/-! ### The value -/

/-- Two reserves that each grow for a share grow for a share together. -/
theorem value_of_parts {x y s x2 y2 s2 : ℕ} (hx : x * s2 ≤ x2 * s) (hy : y * s2 ≤ y2 * s) :
    x * y * s2 ^ 2 ≤ x2 * y2 * s ^ 2 :=
  calc x * y * s2 ^ 2 = (x * s2) * (y * s2) := by ring
    _ ≤ (x2 * s) * (y2 * s) := Nat.mul_le_mul hx hy
    _ = x2 * y2 * s ^ 2 := by ring

/-- **No transition lowers the value behind a share.** -/
theorem Transition.value {x y s x2 y2 s2 : ℕ} (h : Transition x y s x2 y2 s2) :
    x * y * s2 ^ 2 ≤ x2 * y2 * s ^ 2 := by
  cases h with
  | swap hs hproduct =>
    have hfee : (1000 * x2 - 3 * (x2 - x)) * (1000 * y2 - 3 * (y2 - y)) ≤ 1000 * x2 * (1000 * y2) :=
      Nat.mul_le_mul (Nat.sub_le _ _) (Nat.sub_le _ _)
    have hmillion : 1000000 * (x * y) ≤ 1000000 * (x2 * y2) := by
      calc 1000000 * (x * y) = 1000000 * x * y := by ring
        _ ≤ 1000 * x2 * (1000 * y2) := hproduct.trans hfee
        _ = 1000000 * (x2 * y2) := by ring
    rw [hs]
    exact Nat.mul_le_mul_right _ (Nat.le_of_mul_le_mul_left hmillion (by decide))
  | add _ hx hy => exact value_of_parts (by rwa [Nat.mul_comm x]) (by rwa [Nat.mul_comm y])
  | remove _ hx hy => exact value_of_parts hx hy

/-- Every value computed fits 128 bits. -/
theorem transitionValues_lt {before : Pool} {sats assets shares : ℕ}
    (hb : InBounds before.sats before.assets before.shares) (ha : InBounds sats assets shares) :
    ∀ v ∈ transitionValues before sats assets shares, v < 2 ^ 128 := by
  have hamount : maxAmount = 2 ^ 53 - 1 := rfl
  have hfits := not_swapOverflows hb ha
  obtain ⟨hx, hy, hs⟩ := hb
  obtain ⟨hx2, hy2, hs2⟩ := ha
  have hproduct : ∀ a b, a < 2 ^ 64 → b < 2 ^ 64 → a * b < 2 ^ 128 := fun a b ha hb =>
    (Nat.mul_lt_mul'' ha hb).trans_eq (by decide)
  have hquotient : ∀ a b c, a < 2 ^ 64 → b < 2 ^ 64 → a * b / c < 2 ^ 128 := fun a b c ha hb =>
    (Nat.div_le_self _ _).trans_lt (hproduct a b ha hb)
  unfold swapOverflows at hfits
  rw [not_or, not_le, not_le] at hfits
  intro v hv
  simp only [transitionValues] at hv
  split_ifs at hv with hsame hadd
  · simp only [List.mem_cons, List.not_mem_nil, or_false] at hv
    rcases hv with rfl | rfl | rfl | rfl | rfl | rfl | rfl | rfl | rfl | rfl | rfl
    all_goals first | exact hfits.1 | exact hfits.2 | omega
  · simp only [List.mem_cons, List.not_mem_nil, or_false] at hv
    rcases hv with rfl | rfl | rfl | rfl | rfl | rfl | rfl
    · omega
    · exact hproduct _ _ (by omega) hs
    · exact hquotient _ _ _ (by omega) hs
    · omega
    · exact hproduct _ _ (by omega) hs
    · exact hquotient _ _ _ (by omega) hs
    · omega
  · simp only [List.mem_cons, List.not_mem_nil, or_false] at hv
    rcases hv with rfl | rfl | rfl | rfl | rfl | rfl | rfl
    · omega
    · omega
    · exact hproduct _ _ (by omega) (by omega)
    · exact hquotient _ _ _ (by omega) (by omega)
    · omega
    · exact hproduct _ _ (by omega) (by omega)
    · exact hquotient _ _ _ (by omega) (by omega)

/-- **The value behind a share never falls**: for every transition accepted, in
exact integers; a swap keeps the product after its fee; and on no transition
within the bounds does a division by zero, a difference below zero or a value
of more than 128 bits occur. -/
theorem value_per_share_kept {before : Pool} {sats assets shares : ℕ}
    (hb : InBounds before.sats before.assets before.shares) (ha : InBounds sats assets shares) :
    (∀ checks, checkTransition checks before sats assets shares ≠ .panic) ∧
    (∀ v ∈ transitionValues before sats assets shares, v < 2 ^ 128) ∧
    3 * (sats - before.sats) ≤ 1000 * sats ∧ 3 * (assets - before.assets) ≤ 1000 * assets ∧
    ∀ checks, checkTransition checks before sats assets shares = .ok () →
      before.sats * before.assets * shares ^ 2 ≤ sats * assets * before.shares ^ 2 ∧
      (shares = before.shares → 1000000 * before.sats * before.assets ≤
        (1000 * sats - 3 * (sats - before.sats)) *
          (1000 * assets - 3 * (assets - before.assets))) := by
  have hmax : Word.maxVal 64 = 2 ^ 64 - 1 := rfl
  have hamount : maxAmount = 2 ^ 53 - 1 := rfl
  have hsats := ha.sats
  have hassets := ha.assets
  refine ⟨?_, transitionValues_lt hb ha, by omega, by omega, ?_⟩
  · intro checks hpanic
    have hover := (checkTransition_panic hb.ok (by omega) (by omega)).mp hpanic
    exact not_swapOverflows hb ha hover.2.2
  · intro checks hok
    have htransition := checkTransition_ok hb ha hok
    refine ⟨htransition.value, fun hsame => ?_⟩
    cases htransition with
    | swap _ hproduct => exact hproduct
    | add hlt _ _ => omega
    | remove hlt _ _ => omega

/-- A swap of 1,000 sats in for 9 of the assets out, on a pool without shares. -/
theorem value_per_share_kept_sample :
    checkTransition true ⟨0, 0, 1000000, 10000, 0, OutPoint.null, 0⟩ 1001000 9991 0 = .ok () ∧
      1000000 * 10000 * 0 ^ 2 ≤ 1001000 * 9991 * 0 ^ 2 := by
  have hb : InBounds 1000000 10000 0 := ⟨by decide, by decide, by decide⟩
  have ha : InBounds 1001000 9991 0 := ⟨by decide, by decide, by decide⟩
  have hok : checkTransition true ⟨0, 0, 1000000, 10000, 0, OutPoint.null, 0⟩ 1001000 9991 0 =
    .ok () := by decide
  obtain ⟨-, -, -, -, hkept⟩ :=
    @value_per_share_kept ⟨0, 0, 1000000, 10000, 0, OutPoint.null, 0⟩ _ _ _ hb ha
  exact ⟨hok, (hkept true hok).1⟩

/-! ### Runs of transitions -/

/-- A run of accepted transitions: sats, assets and shares from one pool to another. -/
inductive Transitions : ℕ × ℕ × ℕ → ℕ × ℕ × ℕ → Prop
  | refl {p} : Transitions p p
  | step {p before sats assets shares checks} :
      Transitions p (before.sats, before.assets, before.shares) →
      InBounds before.sats before.assets before.shares → InBounds sats assets shares →
      checkTransition checks before sats assets shares = .ok () →
      Transitions p (sats, assets, shares)

/-- A pool without shares has none after a transition. -/
theorem Transition.no_shares {x y x2 y2 s2 : ℕ} (hx : 1 ≤ x) (h : Transition x y 0 x2 y2 s2) :
    s2 = 0 := by
  cases h with
  | swap hs _ => exact hs
  | add _ hadd _ =>
    rw [Nat.mul_zero, Nat.le_zero, Nat.mul_eq_zero] at hadd
    omega
  | remove hs _ _ => omega

/-- **Over a run the value behind a share does not fall**, also where the shares
are removed down to zero on the way. -/
theorem Transitions.value_kept {p q : ℕ × ℕ × ℕ} (h : Transitions p q) :
    p.1 * p.2.1 * q.2.2 ^ 2 ≤ q.1 * q.2.1 * p.2.2 ^ 2 := by
  induction h with
  | refl => exact le_rfl
  | @step before sats assets shares _ _ hb ha hok ih =>
    dsimp only at ih ⊢
    have htransition := checkTransition_ok hb ha hok
    rcases Nat.eq_zero_or_pos before.shares with hzero | hpos
    · rw [hzero] at htransition
      rw [htransition.no_shares hb.sats.1, Nat.zero_pow (by decide), Nat.mul_zero]
      exact Nat.zero_le _
    · have hone := htransition.value
      -- both hold times the square of the shares between them
      have hsq : 0 < before.shares ^ 2 := Nat.pow_pos hpos
      refine Nat.le_of_mul_le_mul_right ?_ hsq
      calc p.1 * p.2.1 * shares ^ 2 * before.shares ^ 2
          = p.1 * p.2.1 * before.shares ^ 2 * shares ^ 2 := by ring
        _ ≤ before.sats * before.assets * p.2.2 ^ 2 * shares ^ 2 := Nat.mul_le_mul_right _ ih
        _ = before.sats * before.assets * shares ^ 2 * p.2.2 ^ 2 := by ring
        _ ≤ sats * assets * before.shares ^ 2 * p.2.2 ^ 2 := Nat.mul_le_mul_right _ hone
        _ = sats * assets * p.2.2 ^ 2 * before.shares ^ 2 := by ring

end Sidestr
