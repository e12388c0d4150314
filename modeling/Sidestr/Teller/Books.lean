/-
# The books balance

What a ledger owes is what it was paid in less what it paid out, as long as
every balance is an amount that reads back. A credit and a transfer write the
sum of two amounts and check only what they read, so the sum may be more than
an amount: the entry is unreadable from then on, and every total with it. A
run's books balance exactly when no move writes such a sum.

Key definitions: `Balanced`, `Fits`, `BooksBalance`.
Key theorems: `setBalance_cases`, `step_balanced`, `books_balance`.
-/
import Sidestr.Teller.Ledger
import Mathlib.Tactic.Ring

namespace Sidestr

namespace Teller

open Method

/-! ### Entries -/

theorem findIdx?_split {α : Type} {p : α → Bool} {l : List α} {i : ℕ} (h : l.findIdx? p = some i) :
    ∃ pre x post, l = pre ++ x :: post ∧ i = pre.length ∧ p x = true ∧ ∀ y ∈ pre, p y = false := by
  obtain ⟨hi, hp, hbefore⟩ := List.findIdx?_eq_some_iff_getElem.mp h
  refine ⟨l.take i, l[i], l.drop (i + 1), ?_, ?_, hp, ?_⟩
  · rw [List.getElem_cons_drop, List.take_append_drop]
  · rw [List.length_take]
    omega
  · intro y hy
    obtain ⟨j, hj, rfl⟩ := List.mem_take_iff_getElem.mp hy
    rw [lt_min_iff] at hj
    exact Bool.eq_false_iff.mpr (hbefore j hj.1)

theorem modify_split {α : Type} (f : α → α) (pre : List α) (x : α) (post : List α) :
    (pre ++ x :: post).modify pre.length f = pre ++ f x :: post := by
  induction pre with
  | nil => rfl
  | cons y pre ih =>
    rw [List.cons_append, List.length_cons, List.modify_succ_cons, ih]
    rfl

/-- The satoshis of an entry that reads. -/
def Entry.value (e : Entry) : ℕ :=
  match sats e.amount with
  | .ok n => n
  | _ => 0

theorem Entry.value_eq {e : Entry} {n : ℕ} (h : sats e.amount = .ok n) : e.value = n := by
  unfold Entry.value
  rw [h]

namespace Ledger

variable {l : Ledger}

def Readable (l : Ledger) : Prop := ∀ e ∈ l.entries, sats e.amount = .ok e.value

def held (l : Ledger) : ℕ := (l.entries.map Entry.value).sum

/-- The account's entry, the first under its name. -/
def HasEntry (l : Ledger) (a : Text) (pre : List Entry) (e : Entry) (post : List Entry) : Prop :=
  l.entries = pre ++ e :: post ∧ e.url = a ∧ ∀ x ∈ pre, x.url ≠ a

theorem entryIndex_none {a : Text} (h : l.entryIndex a = none) : ∀ x ∈ l.entries, x.url ≠ a := by
  intro x hx
  have hne := List.findIdx?_eq_none_iff.mp h x hx
  simpa using hne

theorem entryIndex_some {a : Text} {i : ℕ} (h : l.entryIndex a = some i) :
    ∃ pre e post, l.HasEntry a pre e post ∧ i = pre.length := by
  obtain ⟨pre, e, post, hl, hi, he, hpre⟩ := findIdx?_split h
  refine ⟨pre, e, post, ⟨hl, by simpa using he, fun x hx => ?_⟩, hi⟩
  simpa using hpre x hx

/-- What a balance written replaces: the account's first entry, or none. -/
theorem setBalance_cases (l : Ledger) (a : Text) (n : ℕ) :
    (∃ pre e post, l.HasEntry a pre e post ∧ l.entryIndex a = some pre.length ∧
      (l.setBalance a n).entries = pre ++ { e with amount := textOf n } :: post) ∨
    ((∀ x ∈ l.entries, x.url ≠ a) ∧ l.entryIndex a = none ∧
      (l.setBalance a n).entries = l.entries ++ [⟨"Entry".toList, a, textOf n⟩]) := by
  unfold setBalance
  cases hi : l.entryIndex a with
  | none => exact .inr ⟨entryIndex_none hi, rfl, rfl⟩
  | some i =>
    obtain ⟨pre, e, post, he, rfl⟩ := entryIndex_some hi
    refine .inl ⟨pre, e, post, he, rfl, ?_⟩
    dsimp only
    rw [he.1, modify_split]

@[simp] theorem setBalance_deposits (a : Text) (n : ℕ) :
    (l.setBalance a n).deposits = l.deposits := by
  unfold setBalance
  split <;> rfl

@[simp] theorem setBalance_payouts (a : Text) (n : ℕ) : (l.setBalance a n).payouts = l.payouts := by
  unfold setBalance
  split <;> rfl

@[simp] theorem setBalance_applied (a : Text) (n : ℕ) : (l.setBalance a n).applied = l.applied := by
  unfold setBalance
  split <;> rfl

/-- An account's balance is its first entry's, and 0 with none. -/
theorem balance_eq {a : Text} (ha : accountOf a = .ok a) :
    l.balance a = match l.entryIndex a with
      | some i => Res.expect l.entries[i]? >>= fun e => sats e.amount
      | none => .ok 0 := by
  unfold balance
  rw [ha]
  exact Res.ok_bind _ _

theorem balance_entry {a : Text} {pre post : List Entry} {e : Entry} (ha : accountOf a = .ok a)
    (he : l.HasEntry a pre e post) (hi : l.entryIndex a = some pre.length) :
    l.balance a = sats e.amount := by
  have hget : (pre ++ e :: post)[pre.length]? = some e := by
    rw [List.getElem?_append_right (Nat.le_refl _), Nat.sub_self]
    rfl
  rw [balance_eq ha, hi]
  dsimp only
  rw [he.1, hget, Res.expect_some, Res.ok_bind]

theorem balance_none {a : Text} (ha : accountOf a = .ok a) (hi : l.entryIndex a = none) :
    l.balance a = .ok 0 := by
  rw [balance_eq ha, hi]

/-- Of entries that read, a balance reads. -/
theorem balance_ok {a : Text} (ha : accountOf a = .ok a) (hread : l.Readable) :
    ∃ b, l.balance a = .ok b := by
  cases hi : l.entryIndex a with
  | none => exact ⟨0, balance_none ha hi⟩
  | some i =>
    obtain ⟨pre, e, post, he, rfl⟩ := entryIndex_some hi
    have hmem : e ∈ l.entries := by
      rw [he.1]
      exact List.mem_append_right _ List.mem_cons_self
    exact ⟨e.value, (balance_entry ha he hi).trans (hread e hmem)⟩

/-- A balance as a search of the entries. -/
theorem balance_find {a : Text} (ha : accountOf a = .ok a) :
    l.balance a = match l.entries.find? fun e => e.url == a with
      | some e => sats e.amount
      | none => .ok 0 := by
  cases hi : l.entryIndex a with
  | none =>
    have hnone : l.entries.find? (fun e => e.url == a) = none := by
      rw [List.find?_eq_none]
      intro x hx
      simpa using entryIndex_none hi x hx
    rw [balance_none ha hi, hnone]
  | some i =>
    obtain ⟨pre, e, post, he, rfl⟩ := entryIndex_some hi
    have hsome : l.entries.find? (fun e => e.url == a) = some e := by
      rw [List.find?_eq_some_iff_append]
      refine ⟨by simpa using he.2.1, pre, post, he.1, fun x hx => ?_⟩
      simpa using he.2.2 x hx
    rw [balance_entry ha he hi, hsome]

/-- A balance written is what that account's balance reads; the others' stay. -/
theorem balance_setBalance {a a' : Text} (n : ℕ) (ha' : accountOf a' = .ok a') :
    (l.setBalance a n).balance a' = if a = a' then checkSats n else l.balance a' := by
  rw [balance_find ha', balance_find ha']
  rcases l.setBalance_cases a n with ⟨pre, e, post, he, -, hset⟩ | ⟨hno, -, hset⟩
  · have hpre : pre.find? (fun x => x.url == a) = none := by
      rw [List.find?_eq_none]
      intro x hx
      simpa using he.2.2 x hx
    rw [hset, he.1, List.find?_append, List.find?_append, List.find?_cons, List.find?_cons]
    dsimp only
    rw [he.2.1]
    split_ifs with haa
    · rw [← haa, hpre, beq_self_eq_true]
      exact sats_textOf n
    · rw [beq_eq_false_iff_ne.mpr haa]
  · have hfresh : l.entries.find? (fun x => x.url == a) = none := by
      rw [List.find?_eq_none]
      intro x hx
      simpa using hno x hx
    rw [hset, List.find?_append, List.find?_cons]
    dsimp only
    split_ifs with haa
    · rw [← haa, hfresh, beq_self_eq_true]
      exact sats_textOf n
    · rw [beq_eq_false_iff_ne.mpr haa, List.find?_nil, Option.or_none]

theorem textOf_value {n : ℕ} (hn : n ≤ maxSats) : sats (textOf n) = .ok n := by
  rw [sats_textOf, checkSats_eq_ok]
  exact ⟨hn, rfl⟩

/-- A balance written keeps the entries' accounts apart. -/
theorem setBalance_urls (a : Text) (n : ℕ) (h : (l.entries.map Entry.url).Nodup) :
    ((l.setBalance a n).entries.map Entry.url).Nodup := by
  rcases l.setBalance_cases a n with ⟨pre, e, post, he, -, hset⟩ | ⟨hno, -, hset⟩
  · rw [he.1] at h
    rw [hset]
    simpa using h
  · rw [hset, List.map_append, List.nodup_append]
    refine ⟨h, by simp, fun u hu v hv => ?_⟩
    obtain ⟨x, hx, rfl⟩ := List.mem_map.mp hu
    rw [List.map_singleton, List.mem_singleton] at hv
    rw [hv]
    exact hno x hx

/-- An amount written reads, and the sum changes by it less what it replaces. -/
theorem setBalance_held {a : Text} {b n : ℕ} (ha : accountOf a = .ok a) (hb : l.balance a = .ok b)
    (hread : l.Readable) (hn : n ≤ maxSats) :
    (l.setBalance a n).Readable ∧ (l.setBalance a n).held + b = l.held + n := by
  have hvalue : ∀ t u, (⟨t, u, textOf n⟩ : Entry).value = n := fun t u =>
    Entry.value_eq (textOf_value hn)
  unfold Readable held
  rcases l.setBalance_cases a n with ⟨pre, e, post, he, hi, hset⟩ | ⟨-, hi, hset⟩
  · rw [balance_entry ha he hi] at hb
    rw [hset]
    constructor
    · intro x hx
      have hold : ∀ x ∈ pre ++ e :: post, sats x.amount = .ok x.value := he.1 ▸ hread
      rcases List.mem_append.mp hx with hx | hx
      · exact hold x (List.mem_append_left _ hx)
      · rcases List.mem_cons.mp hx with rfl | hx
        · rw [hvalue]
          exact textOf_value hn
        · exact hold x (List.mem_append_right _ (List.mem_cons_of_mem _ hx))
    · rw [he.1]
      simp only [List.map_append, List.map_cons, List.sum_append, List.sum_cons, hvalue,
        Entry.value_eq hb]
      omega
  · rw [balance_none ha hi, Res.ok.injEq] at hb
    rw [hset]
    constructor
    · intro x hx
      rcases List.mem_append.mp hx with hx | hx
      · exact hread x hx
      · rw [List.mem_singleton] at hx
        rw [hx, hvalue]
        exact textOf_value hn
    · simp only [List.map_append, List.map_cons, List.map_nil, List.sum_append, List.sum_cons,
        List.sum_nil, hvalue]
      omega

/-- More than an amount written does not read. -/
theorem setBalance_unreadable {a : Text} {n : ℕ} (hn : maxSats < n) :
    ∃ e ∈ (l.setBalance a n).entries, ∀ v, sats e.amount ≠ .ok v := by
  have hlost : ∀ v, sats (textOf n) ≠ .ok v := by
    intro v hv
    rw [sats_textOf, checkSats_eq_ok] at hv
    omega
  rcases l.setBalance_cases a n with ⟨pre, e, post, -, -, hset⟩ | ⟨-, -, hset⟩
  · rw [hset]
    exact ⟨_, List.mem_append_right _ List.mem_cons_self, hlost⟩
  · rw [hset]
    exact ⟨_, List.mem_append_right _ List.mem_cons_self, hlost⟩

theorem addEntry_ok {s t : ℕ} {e : Entry} :
    addEntry s e = .ok t ↔ ∃ n, sats e.amount = .ok n ∧ s + n < 2 ^ 64 ∧ t = s + n := by
  unfold addEntry
  rw [Res.bind_eq_ok]
  refine exists_congr fun n => and_congr_right fun _ => ?_
  split_ifs with hn
  · rw [Res.ok.injEq]
    exact ⟨fun h => ⟨hn, h.symm⟩, fun h => h.2.symm⟩
  · exact ⟨fun h => (by cases h), fun h => absurd h.1 hn⟩

/-- Entries add up when they read and their sum is a `u64`. -/
theorem foldlM_addEntry : ∀ (es : List Entry) (s t : ℕ), s < 2 ^ 64 →
    (Res.foldlM addEntry s es = .ok t ↔ (∀ e ∈ es, sats e.amount = .ok e.value) ∧
      t = s + (es.map Entry.value).sum ∧ t < 2 ^ 64)
  | [], s, t, hs => by
    simp only [Res.foldlM_nil, Res.ok.injEq, List.not_mem_nil, List.map_nil, List.sum_nil]
    constructor
    · rintro rfl
      exact ⟨fun _ h => h.elim, rfl, hs⟩
    · rintro ⟨-, rfl, -⟩
      rfl
  | e :: es, s, t, hs => by
    rw [Res.foldlM_cons, Res.bind_eq_ok]
    simp only [List.forall_mem_cons, List.map_cons, List.sum_cons]
    constructor
    · rintro ⟨s', hadd, hrest⟩
      obtain ⟨n, hn, hfit, rfl⟩ := addEntry_ok.mp hadd
      obtain ⟨hread, ht, hlt⟩ := (foldlM_addEntry es _ t hfit).mp hrest
      rw [Entry.value_eq hn]
      exact ⟨⟨hn, hread⟩, by omega, hlt⟩
    · rintro ⟨⟨hn, hread⟩, ht, hlt⟩
      have hfit : s + e.value < 2 ^ 64 := by omega
      exact ⟨s + e.value, addEntry_ok.mpr ⟨_, hn, hfit, rfl⟩,
        (foldlM_addEntry es _ t hfit).mpr ⟨hread, by omega, hlt⟩⟩

theorem total_ok {t : ℕ} : l.total = .ok t ↔ l.Readable ∧ t = l.held ∧ t < 2 ^ 64 := by
  unfold total Readable held
  rw [foldlM_addEntry l.entries 0 t (by omega), Nat.zero_add]

end Ledger

/-! ### What a move does -/

variable {l l' : Ledger} {r : Res LedgerError Outcome} {now : ℕ}

/-- A deposit's credit, applied. -/
def credited (l : Ledger) (c : Credit) (a : Text) (b now : ℕ) : Ledger :=
  ({ l.setBalance a (b + c.value) with
    deposits := (l.setBalance a (b + c.value)).deposits ++ [⟨c.key, a, c.value, c.height, now⟩]
    } : Ledger).touch now

/-- A withdrawal's debit, applied. -/
def debited (l : Ledger) (d : Debit) (a : Text) (has now : ℕ) : Ledger :=
  ({ l.setBalance a (has - d.amount) with
    applied := (l.setBalance a (has - d.amount)).applied ++ [d.id]
    payouts := (l.setBalance a (has - d.amount)).payouts ++
      [⟨d.id, a, d.amount, some d.to, some d.txid, now⟩] } : Ledger).touch now

/-- A transfer, applied, of which `l₁` is the payer's side. -/
def received (l₁ : Ledger) (t : Transfer) («to» : Text) (b now : ℕ) : Ledger :=
  ({ l₁.setBalance «to» (b + t.amount) with
    applied := (l₁.setBalance «to» (b + t.amount)).applied ++ [t.id] } : Ledger).touch now

/-- A credit goes through: a new outpoint, an amount, and a balance that reads. -/
structure Credits (l : Ledger) (c : Credit) (a : Text) (b : ℕ) : Prop where
  account : accountOf c.account = .ok a
  outpoint : isHex64 c.txid = true
  fresh : c.key ∉ l.deposits.map Deposit.outpoint
  amount : c.value ≤ maxSats
  balance : l.balance a = .ok b

/-- A transfer gets as far as the payer's side. -/
structure Pays (l : Ledger) (t : Transfer) (f «to» : Text) (has : ℕ) : Prop where
  payer : accountOf t.from = .ok f
  payee : accountOf t.to = .ok «to»
  amount : t.amount ≤ maxSats
  some : t.amount ≠ 0
  fresh : t.id ∉ l.applied
  balance : l.balance f = .ok has
  covered : t.amount ≤ has

/-- A debit goes through. -/
structure Debits (l : Ledger) (d : Debit) (a : Text) (has : ℕ) : Prop where
  account : accountOf d.account = .ok a
  amount : d.amount ≤ maxSats
  enough : minPay ≤ d.amount
  fresh : d.id ∉ l.applied
  balance : l.balance a = .ok has
  covered : d.amount ≤ has

theorem not_any_outpoint {k : Text} : (l.deposits.any fun d => d.outpoint == k) = false ↔
    k ∉ l.deposits.map Deposit.outpoint := by
  rw [List.any_eq_false, List.mem_map]
  constructor
  · rintro h ⟨d, hd, rfl⟩
    exact h d hd (beq_self_eq_true _)
  · rintro h d hd hk
    rw [beq_iff_eq] at hk
    exact h ⟨d, hd, hk⟩

theorem credit_cases {c : Credit} (h : credit c now l = (l', r)) :
    (l' = l ∧ r ≠ .ok .applied) ∨
      ∃ a b, Credits l c a b ∧ l' = credited l c a b now ∧ r = .ok .applied := by
  unfold credit at h
  rcases ofRes_bind_cases h with ⟨a, ha, h⟩ | ⟨hl, hr, -⟩
  rotate_left
  · exact .inl ⟨hl, hr _⟩
  rcases ofRes_bind_cases h with ⟨_, hhex, h⟩ | ⟨hl, hr, -⟩
  rotate_left
  · exact .inl ⟨hl, hr _⟩
  rw [get_bind] at h
  split at h
  · cases h
    exact .inl ⟨rfl, by simp⟩
  rename_i hfresh
  rcases ofRes_bind_cases h with ⟨v, hv, h⟩ | ⟨hl, hr, -⟩
  rotate_left
  · exact .inl ⟨hl, hr _⟩
  rcases read_bind_cases h with ⟨b, hb, h⟩ | ⟨hl, hr, -⟩
  rotate_left
  · exact .inl ⟨hl, hr _⟩
  rw [Res.refuseIf_eq_ok, Bool.not_eq_false'] at hhex
  rw [Bool.not_eq_true] at hfresh
  obtain ⟨hamount, rfl⟩ := checkSats_eq_ok.mp hv
  cases h
  exact .inr ⟨a, b, ⟨ha, hhex, not_any_outpoint.mp hfresh, hamount, hb⟩, rfl, rfl⟩

theorem Credits.run {c : Credit} {a : Text} {b : ℕ} (h : Credits l c a b) :
    credit c now l = (credited l c a b now, .ok .applied) := by
  have hfresh := not_any_outpoint.mpr h.fresh
  unfold credit
  rw [h.account, ofRes_ok_bind, h.outpoint, Bool.not_true, Res.refuseIf_false, ofRes_ok_bind,
    get_bind, hfresh, if_neg Bool.false_ne_true, checkSats_eq_ok.mpr ⟨h.amount, rfl⟩,
    ofRes_ok_bind, read_bind, h.balance, ofRes_ok_bind]
  rfl

theorem debit_cases {d : Debit} (h : debit d now l = (l', r)) :
    (l' = l ∧ r ≠ .ok .applied) ∨
      ∃ a has, Debits l d a has ∧ l' = debited l d a has now ∧ r = .ok .applied := by
  unfold debit at h
  rcases ofRes_bind_cases h with ⟨a, ha, h⟩ | ⟨hl, hr, -⟩
  rotate_left
  · exact .inl ⟨hl, hr _⟩
  rcases ofRes_bind_cases h with ⟨v, hv, h⟩ | ⟨hl, hr, -⟩
  rotate_left
  · exact .inl ⟨hl, hr _⟩
  rcases ofRes_bind_cases h with ⟨_, hmin, h⟩ | ⟨hl, hr, -⟩
  rotate_left
  · exact .inl ⟨hl, hr _⟩
  rw [get_bind] at h
  split at h
  · cases h
    exact .inl ⟨rfl, by simp⟩
  rename_i hfresh
  rcases read_bind_cases h with ⟨has, hb, h⟩ | ⟨hl, hr, -⟩
  rotate_left
  · exact .inl ⟨hl, hr _⟩
  rcases ofRes_bind_cases h with ⟨_, hcover, h⟩ | ⟨hl, hr, -⟩
  rotate_left
  · exact .inl ⟨hl, hr _⟩
  rw [Res.refuseIf_eq_ok, decide_eq_false_iff_not, Nat.not_lt] at hmin hcover
  rw [List.contains_iff_mem] at hfresh
  obtain ⟨hamount, rfl⟩ := checkSats_eq_ok.mp hv
  cases h
  exact .inr ⟨a, has, ⟨ha, hamount, hmin, hfresh, hb, hcover⟩, rfl, rfl⟩

theorem Debits.run {d : Debit} {a : Text} {has : ℕ} (h : Debits l d a has) :
    debit d now l = (debited l d a has now, .ok .applied) := by
  have hmin : decide (d.amount < minPay) = false := by simpa using h.enough
  have hcover : decide (has < d.amount) = false := by simpa using h.covered
  have hfresh : ¬ l.applied.contains d.id = true := by simpa using h.fresh
  unfold debit
  rw [h.account, ofRes_ok_bind, checkSats_eq_ok.mpr ⟨h.amount, rfl⟩, ofRes_ok_bind, hmin,
    Res.refuseIf_false, ofRes_ok_bind, get_bind, if_neg hfresh, read_bind, h.balance,
    ofRes_ok_bind, hcover, Res.refuseIf_false, ofRes_ok_bind]
  rfl

/-- A transfer is refused, or it writes the payer's side and then the payee's,
if the payee's balance reads. -/
theorem transfer_cases {t : Transfer} (h : transfer t now l = (l', r)) :
    (l' = l ∧ r ≠ .ok .applied) ∨
      ∃ f «to» has, Pays l t f «to» has ∧
        ((∃ b, (l.setBalance f (has - t.amount)).balance «to» = .ok b ∧
            l' = received (l.setBalance f (has - t.amount)) t «to» b now ∧ r = .ok .applied) ∨
          ((∀ b, (l.setBalance f (has - t.amount)).balance «to» ≠ .ok b) ∧
            l' = l.setBalance f (has - t.amount) ∧ r ≠ .ok .applied)) := by
  unfold transfer at h
  rcases ofRes_bind_cases h with ⟨f, hf, h⟩ | ⟨hl, hr, -⟩
  rotate_left
  · exact .inl ⟨hl, hr _⟩
  rcases ofRes_bind_cases h with ⟨«to», hto, h⟩ | ⟨hl, hr, -⟩
  rotate_left
  · exact .inl ⟨hl, hr _⟩
  rcases ofRes_bind_cases h with ⟨v, hv, h⟩ | ⟨hl, hr, -⟩
  rotate_left
  · exact .inl ⟨hl, hr _⟩
  rcases ofRes_bind_cases h with ⟨_, hzero, h⟩ | ⟨hl, hr, -⟩
  rotate_left
  · exact .inl ⟨hl, hr _⟩
  rw [get_bind] at h
  split at h
  · cases h
    exact .inl ⟨rfl, by simp⟩
  rename_i hfresh
  rcases read_bind_cases h with ⟨has, hb, h⟩ | ⟨hl, hr, -⟩
  rotate_left
  · exact .inl ⟨hl, hr _⟩
  rcases ofRes_bind_cases h with ⟨_, hcover, h⟩ | ⟨hl, hr, -⟩
  rotate_left
  · exact .inl ⟨hl, hr _⟩
  rw [Res.refuseIf_eq_ok, decide_eq_false_iff_not, Nat.not_lt] at hcover
  rw [Res.refuseIf_eq_ok, beq_eq_false_iff_ne] at hzero
  rw [List.contains_iff_mem] at hfresh
  obtain ⟨hamount, rfl⟩ := checkSats_eq_ok.mp hv
  have hpays : Pays l t f «to» has := ⟨hf, hto, hamount, hzero, hfresh, hb, hcover⟩
  refine .inr ⟨f, «to», has, hpays, ?_⟩
  rw [modify_bind] at h
  rcases read_bind_cases h with ⟨b, hb', h⟩ | ⟨hl, hr, hlost⟩
  · cases h
    exact .inl ⟨b, hb', rfl, rfl⟩
  · exact .inr ⟨hlost, hl, hr _⟩

theorem Pays.run {t : Transfer} {f «to» : Text} {has b : ℕ} (h : Pays l t f «to» has)
    (hb : (l.setBalance f (has - t.amount)).balance «to» = .ok b) :
    transfer t now l =
      (received (l.setBalance f (has - t.amount)) t «to» b now, .ok .applied) := by
  have hzero : (t.amount == 0) = false := by simpa using h.some
  have hcover : decide (has < t.amount) = false := by simpa using h.covered
  have hfresh : ¬ l.applied.contains t.id = true := by simpa using h.fresh
  unfold transfer
  rw [h.payer, ofRes_ok_bind, h.payee, ofRes_ok_bind, checkSats_eq_ok.mpr ⟨h.amount, rfl⟩,
    ofRes_ok_bind, hzero, Res.refuseIf_false, ofRes_ok_bind, get_bind, if_neg hfresh, read_bind,
    h.balance, ofRes_ok_bind, hcover, Res.refuseIf_false, ofRes_ok_bind, modify_bind, read_bind, hb,
    ofRes_ok_bind]
  rfl

/-! ### The books -/

/-- A ledger whose books balance: what is owed is what was paid in less what
was paid out, and each receipt is there once. -/
structure Balanced (l : Ledger) : Prop where
  urls : (l.entries.map Entry.url).Nodup
  readable : ∀ e ∈ l.entries, ∃ n, sats e.amount = .ok n
  total : ∃ t, l.total = .ok t ∧
    t + (l.payouts.map Payout.value).sum = (l.deposits.map Deposit.value).sum
  outpoints : (l.deposits.map Deposit.outpoint).Nodup
  applied : l.applied.Nodup

theorem Balanced.held (hl : Balanced l) : l.Readable ∧ l.held < 2 ^ 64 ∧
    l.held + (l.payouts.map Payout.value).sum = (l.deposits.map Deposit.value).sum := by
  obtain ⟨t, ht, hsum⟩ := hl.total
  obtain ⟨hread, rfl, hlt⟩ := Ledger.total_ok.mp ht
  exact ⟨hread, hlt, hsum⟩

theorem balanced_of_held (hurls : (l.entries.map Entry.url).Nodup) (hread : l.Readable)
    (hlt : l.held < 2 ^ 64)
    (hsum : l.held + (l.payouts.map Payout.value).sum = (l.deposits.map Deposit.value).sum)
    (houtpoints : (l.deposits.map Deposit.outpoint).Nodup) (happlied : l.applied.Nodup) :
    Balanced l :=
  ⟨hurls, fun e he => ⟨_, hread e he⟩, ⟨l.held, Ledger.total_ok.mpr ⟨hread, rfl, hlt⟩, hsum⟩,
    houtpoints, happlied⟩

/-- The sums a move writes are amounts: a new deposit's with the balance it is
added to, and with the total a `u64`; a transfer's with the payee's balance. -/
def Fits (l : Ledger) : Move → Prop
  | .credit c => ∀ a b t, Credits l c a b → l.total = .ok t →
    b + c.value ≤ maxSats ∧ t + c.value < 2 ^ 64
  | .transfer t => ∀ f «to» has b, Pays l t f «to» has → f ≠ «to» → l.balance «to» = .ok b →
    b + t.amount ≤ maxSats
  | .debit _ => True

theorem nodup_concat {α : Type} {l : List α} {a : α} (h : l.Nodup) (ha : a ∉ l) :
    (l ++ [a]).Nodup := by
  rw [List.nodup_append]
  refine ⟨h, by simp, fun x hx y hy => ?_⟩
  rw [List.mem_singleton] at hy
  rintro rfl
  exact ha (hy ▸ hx)

/-- A credit keeps the books exactly when what it writes is an amount. -/
theorem credited_balanced {c : Credit} {a : Text} {b : ℕ} (hl : Balanced l)
    (h : Credits l c a b) : Balanced (credited l c a b now) ↔
      b + c.value ≤ maxSats ∧ l.held + c.value < 2 ^ 64 := by
  obtain ⟨hread, hlt, hsum⟩ := hl.held
  have ha := accountOf_accountOf h.account
  have hentries : (credited l c a b now).entries = (l.setBalance a (b + c.value)).entries := rfl
  have hdeposits : (credited l c a b now).deposits =
      l.deposits ++ [⟨c.key, a, c.value, c.height, now⟩] := by
    unfold credited Ledger.touch
    dsimp only
    rw [Ledger.setBalance_deposits]
  have hpayouts : (credited l c a b now).payouts = l.payouts := Ledger.setBalance_payouts _ _
  have happlied : (credited l c a b now).applied = l.applied := Ledger.setBalance_applied _ _
  have hheld : (credited l c a b now).held = (l.setBalance a (b + c.value)).held := rfl
  constructor
  · intro hnew
    have hfit : b + c.value ≤ maxSats := by
      by_contra hover
      obtain ⟨e, he, hlost⟩ := Ledger.setBalance_unreadable (l := l) (a := a) (Nat.not_le.mp hover)
      obtain ⟨n, hn⟩ := hnew.readable e he
      exact hlost n hn
    have hset := (Ledger.setBalance_held ha h.balance hread hfit).2
    have hbound := hnew.held.2.1
    rw [hheld] at hbound
    exact ⟨hfit, by omega⟩
  · rintro ⟨hfit, hbound⟩
    obtain ⟨hread', hset⟩ := Ledger.setBalance_held ha h.balance hread hfit
    refine balanced_of_held (Ledger.setBalance_urls _ _ hl.urls) hread' (by rw [hheld]; omega) ?_ ?_
      ?_
    · rw [hheld, hpayouts, hdeposits, List.map_append, List.sum_append, List.map_singleton,
        List.sum_singleton]
      dsimp only
      omega
    · rw [hdeposits, List.map_append, List.map_singleton]
      exact nodup_concat hl.outpoints h.fresh
    · rw [happlied]
      exact hl.applied

/-- A debit keeps the books. -/
theorem debited_balanced {d : Debit} {a : Text} {has : ℕ} (hl : Balanced l)
    (h : Debits l d a has) (hhas : has ≤ maxSats) : Balanced (debited l d a has now) := by
  obtain ⟨hread, hlt, hsum⟩ := hl.held
  have ha := accountOf_accountOf h.account
  have hcovered := h.covered
  obtain ⟨hread', hset⟩ := Ledger.setBalance_held ha h.balance hread
    (show has - d.amount ≤ maxSats by omega)
  have hdeposits : (debited l d a has now).deposits = l.deposits := Ledger.setBalance_deposits _ _
  have hpayouts : (debited l d a has now).payouts =
      l.payouts ++ [⟨d.id, a, d.amount, some d.to, some d.txid, now⟩] := by
    unfold debited Ledger.touch
    dsimp only
    rw [Ledger.setBalance_payouts]
  have happlied : (debited l d a has now).applied = l.applied ++ [d.id] := by
    unfold debited Ledger.touch
    dsimp only
    rw [Ledger.setBalance_applied]
  have hheld : (debited l d a has now).held = (l.setBalance a (has - d.amount)).held := rfl
  refine balanced_of_held (Ledger.setBalance_urls _ _ hl.urls) hread' (by rw [hheld]; omega) ?_ ?_ ?_
  · rw [hheld, hdeposits, hpayouts, List.map_append, List.sum_append, List.map_singleton,
      List.sum_singleton]
    dsimp only
    omega
  · rw [hdeposits]
    exact hl.outpoints
  · rw [happlied]
    exact nodup_concat hl.applied h.fresh

/-- The payer's side of a transfer: the books are short by the amount. -/
theorem paid_held {t : Transfer} {f «to» : Text} {has : ℕ} (hl : Balanced l)
    (h : Pays l t f «to» has) (hhas : has ≤ maxSats) :
    (l.setBalance f (has - t.amount)).Readable ∧
      (l.setBalance f (has - t.amount)).held + t.amount = l.held := by
  have hcovered := h.covered
  obtain ⟨hread', hset⟩ := Ledger.setBalance_held (accountOf_accountOf h.payer) h.balance
    hl.held.1 (show has - t.amount ≤ maxSats by omega)
  exact ⟨hread', by omega⟩

/-- A transfer keeps the books exactly when the payee's balance is an amount. -/
theorem received_balanced {t : Transfer} {f «to» : Text} {has b : ℕ} (hl : Balanced l)
    (h : Pays l t f «to» has) (hhas : has ≤ maxSats)
    (hb : (l.setBalance f (has - t.amount)).balance «to» = .ok b) :
    Balanced (received (l.setBalance f (has - t.amount)) t «to» b now) ↔
      b + t.amount ≤ maxSats := by
  obtain ⟨hread, hlt, hsum⟩ := hl.held
  obtain ⟨hread₁, hheld₁⟩ := paid_held hl h hhas
  generalize hl₁ : l.setBalance f (has - t.amount) = l₁ at *
  have hdeposits : (received l₁ t «to» b now).deposits = l.deposits := by
    rw [← Ledger.setBalance_deposits (l := l) f (has - t.amount), hl₁]
    exact Ledger.setBalance_deposits _ _
  have hpayouts : (received l₁ t «to» b now).payouts = l.payouts := by
    rw [← Ledger.setBalance_payouts (l := l) f (has - t.amount), hl₁]
    exact Ledger.setBalance_payouts _ _
  have happlied : (received l₁ t «to» b now).applied = l.applied ++ [t.id] := by
    rw [← Ledger.setBalance_applied (l := l) f (has - t.amount), hl₁]
    unfold received Ledger.touch
    dsimp only
    rw [Ledger.setBalance_applied]
  have hheld : (received l₁ t «to» b now).held = (l₁.setBalance «to» (b + t.amount)).held := rfl
  have hurls : (l₁.entries.map Entry.url).Nodup := hl₁ ▸ Ledger.setBalance_urls _ _ hl.urls
  constructor
  · intro hnew
    by_contra hover
    obtain ⟨e, he, hlost⟩ := Ledger.setBalance_unreadable (l := l₁) (a := «to»)
      (Nat.not_le.mp hover)
    obtain ⟨n, hn⟩ := hnew.readable e he
    exact hlost n hn
  · intro hfit
    obtain ⟨hread', hset⟩ := Ledger.setBalance_held (accountOf_accountOf h.payee) hb hread₁ hfit
    refine balanced_of_held (Ledger.setBalance_urls _ _ hurls) hread' (by rw [hheld]; omega) ?_ ?_ ?_
    · rw [hheld, hdeposits, hpayouts]
      omega
    · rw [hdeposits]
      exact hl.outpoints
    · rw [happlied]
      exact nodup_concat hl.applied h.fresh

/-- A balance that reads is an amount. -/
theorem balance_le {a : Text} {b : ℕ} (h : l.balance a = .ok b) : b ≤ maxSats := by
  unfold Ledger.balance at h
  obtain ⟨a', -, h⟩ := Res.bind_eq_ok.mp h
  split at h
  · obtain ⟨e, -, h⟩ := Res.bind_eq_ok.mp h
    unfold sats at h
    dsimp only at h
    split at h
    · cases h
    split at h
    · cases h
    · obtain ⟨hle, rfl⟩ := checkSats_eq_ok.mp h
      exact hle
  · cases h
    exact Nat.zero_le _

/-- **One move.** From books that balance, a move keeps them, and one refused
or skipped changes nothing, exactly when it fits. -/
theorem step_balanced (m : Move) (now : ℕ) (hl : Balanced l) :
    (Balanced (m.run now l).1 ∧ ((m.run now l).2 ≠ .ok .applied → (m.run now l).1 = l)) ↔
      Fits l m := by
  obtain ⟨hread, hlt, -⟩ := hl.held
  rcases hrun : m.run now l with ⟨l', r⟩
  dsimp only
  cases m with
  | credit c =>
    have hfits : Fits l (.credit c) ↔ ∀ a b, Credits l c a b →
        b + c.value ≤ maxSats ∧ l.held + c.value < 2 ^ 64 :=
      ⟨fun h a b hc => h a b l.held hc (Ledger.total_ok.mpr ⟨hread, rfl, hlt⟩),
        fun h a b t hc ht => (Ledger.total_ok.mp ht).2.1 ▸ h a b hc⟩
    rw [hfits]
    rcases credit_cases hrun with ⟨rfl, hr⟩ | ⟨a, b, hc, rfl, rfl⟩
    · refine iff_of_true ⟨hl, fun _ => rfl⟩ fun a b hc => ?_
      have happlied := hrun.symm.trans hc.run
      exact absurd (congrArg Prod.snd happlied) hr
    · rw [credited_balanced hl hc]
      refine ⟨fun h a' b' hc' => ?_, fun h => ⟨h a b hc, fun hr => absurd rfl hr⟩⟩
      have ha := hc.account.symm.trans hc'.account
      cases ha
      have hb := hc.balance.symm.trans hc'.balance
      cases hb
      exact h.1
  | transfer t =>
    rcases transfer_cases hrun with ⟨rfl, hr⟩ | ⟨f, «to», has, hp, hrest⟩
    · refine iff_of_true ⟨hl, fun _ => rfl⟩ fun f «to» has b hp hne hb => ?_
      have hb' := Ledger.balance_setBalance (l := l') (a := f) (has - t.amount)
        (accountOf_accountOf hp.payee)
      rw [if_neg hne, hb] at hb'
      exact absurd (congrArg Prod.snd (hrun.symm.trans (hp.run hb'))) hr
    · have hhas := balance_le hp.balance
      have hto := accountOf_accountOf hp.payee
      obtain ⟨b, hb⟩ := Ledger.balance_ok hto (paid_held hl hp hhas).1
      rcases hrest with ⟨b', hb', rfl, rfl⟩ | ⟨hlost, -, -⟩
      · cases hb.symm.trans hb'
        rw [received_balanced hl hp hhas hb]
        have hset := Ledger.balance_setBalance (l := l) (a := f) (has - t.amount) hto
        rw [hb] at hset
        constructor
        · intro h f' to' has' b' hp' hne hb'
          cases hp.payer.symm.trans hp'.payer
          cases hp.payee.symm.trans hp'.payee
          rw [if_neg hne, hb', Res.ok.injEq] at hset
          rw [← hset]
          exact h.1
        · intro h
          refine ⟨?_, fun hr => absurd rfl hr⟩
          by_cases hne : f = «to»
          · -- paid to itself, the account has what it had
            rw [if_pos hne] at hset
            obtain ⟨-, rfl⟩ := checkSats_eq_ok.mp hset.symm
            have hcovered := hp.covered
            omega
          · rw [if_neg hne] at hset
            exact h f «to» has b hp hne hset.symm
      · exact absurd hb (hlost b)
  | debit d =>
    rcases debit_cases hrun with ⟨rfl, hr⟩ | ⟨a, has, hd, rfl, rfl⟩
    · exact iff_of_true ⟨hl, fun _ => rfl⟩ trivial
    · exact iff_of_true ⟨debited_balanced hl hd (balance_le hd.balance), fun hr => absurd rfl hr⟩
        trivial

/-- The books balance before and after every move, and a move that is refused
or skipped changes nothing. -/
def BooksBalance : Ledger → List (Move × ℕ) → Prop
  | l, [] => Balanced l
  | l, (m, now) :: ms => Balanced l ∧
    ((m.run now l).2 ≠ .ok .applied → (m.run now l).1 = l) ∧ BooksBalance (m.run now l).1 ms

/-- Every move fits the ledger it comes to. -/
def AllFit : Ledger → List (Move × ℕ) → Prop
  | _, [] => True
  | l, (m, now) :: ms => Fits l m ∧ AllFit (m.run now l).1 ms

theorem booksBalance_iff : ∀ (ms : List (Move × ℕ)) (l : Ledger), Balanced l →
    (BooksBalance l ms ↔ AllFit l ms)
  | [], l, hl => iff_of_true hl trivial
  | (m, now) :: ms, l, hl => by
    have hstep := step_balanced m now hl
    unfold BooksBalance AllFit
    constructor
    · rintro ⟨-, hkept, hrest⟩
      have hnext : Balanced (m.run now l).1 := by
        cases ms with
        | nil => exact hrest
        | cons m' ms =>
          unfold BooksBalance at hrest
          exact hrest.1
      exact ⟨hstep.mp ⟨hnext, hkept⟩, (booksBalance_iff ms _ hnext).mp hrest⟩
    · rintro ⟨hfits, hrest⟩
      obtain ⟨hnext, hkept⟩ := hstep.mpr hfits
      exact ⟨hl, hkept, (booksBalance_iff ms _ hnext).mpr hrest⟩

/-- A new ledger's books balance. -/
theorem newLedger_balanced {genesisHash : Genesis → Text} {p : LedgerParams}
    (h : newLedger genesisHash p = .ok l) : Balanced l := by
  unfold newLedger at h
  obtain ⟨_, -, h⟩ := Res.bind_eq_ok.mp h
  obtain ⟨_, -, h⟩ := Res.bind_eq_ok.mp h
  cases h
  exact ⟨List.nodup_nil, fun e he => (by cases he), ⟨0, rfl, rfl⟩, List.nodup_nil, List.nodup_nil⟩

/-- **The books of a run balance exactly when every sum it writes is an amount.** -/
theorem books_balance {genesisHash : Genesis → Text} {p : LedgerParams}
    (h : newLedger genesisHash p = .ok l) (ms : List (Move × ℕ)) :
    BooksBalance l ms ↔ AllFit l ms :=
  booksBalance_iff ms l (newLedger_balanced h)

/-! ### A run -/

def sampleParams : LedgerParams :=
  ⟨List.replicate 64 'a', "Table 7".toList, "txbt4".toList, 1759300000, 1⟩

/-- The whole supply, deposited at an output of one transaction. -/
def sampleCredit (vout value : ℕ) : Credit :=
  ⟨List.replicate 64 'a', List.replicate 64 'b', vout, value, none⟩

def sampleLedger : Ledger :=
  match newLedger (fun _ => []) sampleParams with
  | .ok l => l
  | _ => ⟨[], [], [], [], [], [], ⟨[], [], [], 0, 0⟩, 0, [], [], [], []⟩

theorem sampleLedger_new : newLedger (fun _ => []) sampleParams = .ok sampleLedger := by
  decide +kernel

theorem books_balance_sample : newLedger (fun _ => []) sampleParams = .ok sampleLedger ∧
    BooksBalance sampleLedger [(.credit (sampleCredit 0 50000), 1759300001)] := by
  refine ⟨sampleLedger_new, (books_balance sampleLedger_new _).mpr ⟨fun a b t hc ht => ?_, trivial⟩⟩
  have hempty : sampleLedger.entries = [] := by decide +kernel
  have hb : b = 0 := by
    have hindex : sampleLedger.entryIndex a = none := by
      unfold Ledger.entryIndex
      rw [hempty]
      rfl
    have hzero := Ledger.balance_none (accountOf_accountOf hc.account) hindex
    rw [hc.balance, Res.ok.injEq] at hzero
    exact hzero
  have ht : t = 0 := by
    obtain ⟨-, rfl, -⟩ := Ledger.total_ok.mp ht
    unfold Ledger.held
    rw [hempty]
    rfl
  rw [hb, ht]
  decide

set_option maxRecDepth 100000 in
theorem sampleLedger_total :
    ((credit (sampleCredit 1 maxSats) 2 ((credit (sampleCredit 0 maxSats) 1 sampleLedger).1)).1).total =
      .err .amount := by
  decide +kernel

/-- Two deposits of the whole supply to one account: its balance reads no more. -/
theorem books_lost : ¬ ∀ (genesisHash : Genesis → Text) (p : LedgerParams) (l : Ledger),
    newLedger genesisHash p = .ok l → ∀ ms, BooksBalance l ms := by
  intro hall
  have hbooks := hall _ _ _ sampleLedger_new [(.credit (sampleCredit 0 maxSats), 1),
    (.credit (sampleCredit 1 maxSats), 2)]
  obtain ⟨-, -, -, -, hlast⟩ := hbooks
  obtain ⟨t, ht, -⟩ := hlast.total
  have hlost := sampleLedger_total.symm.trans ht
  cases hlost

end Teller

end Sidestr
