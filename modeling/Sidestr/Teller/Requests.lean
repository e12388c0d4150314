/-
# Requests and what they do to each other

An account asks for a transfer or a withdrawal by a signed event that carries
an id of its own choice (`request.rs`), and the ledger applies a request once
by that id. The ids of all accounts are kept in one list, so a request silences
another account's exactly when it carries the same id and both would be applied.
A withdrawal the operator has paid out is still debited after other accounts'
requests exactly when none of them took its id and its balance still reads.

Key definitions: `parseRequest`, `Request.move`, `Covered`, `Silenced`, `TakesId`.
Key theorems: `run_applied`, `run_skipped`, `silenced_iff`, `requests_independent_iff`.
-/
import Sidestr.Teller.Books

namespace Sidestr

namespace Teller

open Method

/-! ### Requests -/

/-- A signed event as a relay hands it on. -/
structure Event where
  id : Text
  pubkey : Text
  createdAt : ℕ
  kind : ℕ
  tags : List (List Text)
  content : Text
  sig : Text
  deriving DecidableEq

def requestKind : ℕ := 3700

inductive Op
  | join
  | withdraw
  | transfer
  deriving DecidableEq

def Op.parse (s : Text) : Option Op :=
  if s = "join".toList then some .join
  else if s = "withdraw".toList then some .withdraw
  else if s = "transfer".toList then some .transfer
  else none

/-- A request read back and verified. -/
structure Request where
  id : Text
  op : Op
  /-- Its author. -/
  account : Text
  createdAt : ℕ
  amount : Option ℕ
  «to» : Option Text
  event : Event
  deriving DecidableEq

inductive RequestError
  | notARequest
  | unverified
  | otherLedger
  | opAndId
  | amount
  | noDestination
  | ledger (e : LedgerError)
  deriving DecidableEq

/-- A refusal in the words of the requests. -/
def liftLedger {α : Type} : Res LedgerError α → Res RequestError α
  | .ok a => .ok a
  | .err e => .err (.ledger e)
  | .panic => .panic

/-- The value of the first tag of a name. -/
def Event.tag (ev : Event) (name : Text) : Option Text :=
  (ev.tags.find? fun t => t.head? == some name).bind fun t => t[1]?

/-- An id as a request may carry it: 8 to 64 lower-case hex digits. -/
def isRequestId (id : Text) : Bool :=
  8 ≤ id.length && id.length ≤ 64 && id.all isLowerHex

/-- A request for a ledger, verified, its account its author. -/
def parseRequest (verify : Event → Bool) (ev : Event) (ledgerHash : Text) :
    Res RequestError Request := do
  Res.refuseIf (ev.kind != requestKind) .notARequest
  Res.refuseIf (!verify ev) .unverified
  Res.refuseIf (ev.tag "ledger".toList != some ledgerHash) .otherLedger
  match (ev.tag "op".toList).bind Op.parse, (ev.tag "id".toList).filter isRequestId with
  | some op, some id =>
    let r : Request := ⟨id, op, did ++ ev.pubkey, ev.createdAt, none, none, ev⟩
    if op = .join then .ok r
    else do
      let text ← Res.okOr .amount (ev.tag "amount".toList)
      let amount ← liftLedger (sats text)
      let «to» ← Res.okOr .noDestination ((ev.tag "to".toList).filter fun t => !t.isEmpty)
      let «to» ← if op = .transfer then liftLedger (accountOf «to») else .ok «to»
      .ok { r with amount := some amount, «to» := some «to» }
  | _, _ => .err .opAndId

/-- The move a request asks for; a withdrawal is debited with its payout's txid. -/
def Request.move (r : Request) (txid : Text) : Option Move :=
  match r.op, r.amount, r.to with
  | .transfer, some amount, some «to» => some (.transfer ⟨r.id, r.account, «to», amount⟩)
  | .withdraw, some amount, some «to» => some (.debit ⟨r.id, r.account, amount, «to», txid⟩)
  | _, _, _ => none

/-- The request's move, as a verified event of this ledger asks for it. -/
def Asked (verify : Event → Bool) (ledgerHash : Text) (r : Request) (m : Move) : Prop :=
  (∃ ev, parseRequest verify ev ledgerHash = .ok r) ∧ ∃ txid, r.move txid = some m

/-- A transfer or a debit under an id, of an account. -/
inductive Move.Is (id account : Text) : Move → Prop
  | transfer («to» : Text) (amount : ℕ) : Move.Is id account (.transfer ⟨id, account, «to», amount⟩)
  | debit (amount : ℕ) («to» txid : Text) :
    Move.Is id account (.debit ⟨id, account, amount, «to», txid⟩)

theorem Asked.is {verify : Event → Bool} {ledgerHash : Text} {r : Request} {m : Move}
    (h : Asked verify ledgerHash r m) : m.Is r.id r.account := by
  obtain ⟨-, txid, hm⟩ := h
  unfold Request.move at hm
  split at hm
  · cases hm
    exact .transfer _ _
  · cases hm
    exact .debit _ _ _
  · cases hm

/-! ### When a move is applied -/

/-- The move goes through. -/
def Covered (l : Ledger) : Move → Prop
  | .credit c => ∃ a b, Credits l c a b
  | .transfer t => ∃ f «to» has, Pays l t f «to» has ∧
    ∃ b, (l.setBalance f (has - t.amount)).balance «to» = .ok b
  | .debit d => ∃ a has, Debits l d a has

variable {l l' : Ledger} {id account : Text} {m : Move} {now : ℕ}

/-- **A request's move is applied exactly when it is covered**, and then its id
is added to those applied; else they stay. -/
theorem run_applied (hm : m.Is id account) (now : ℕ) (l : Ledger) :
    (Covered l m ∧ (m.run now l).2 = .ok .applied ∧ (m.run now l).1.applied = l.applied ++ [id]) ∨
      (¬ Covered l m ∧ (m.run now l).2 ≠ .ok .applied ∧ (m.run now l).1.applied = l.applied) := by
  cases hm with
  | transfer «to» amount =>
    unfold Move.run
    dsimp only
    cases hrun : transfer ⟨id, account, «to», amount⟩ now l with
    | mk l' r =>
      by_cases hc : Covered l (.transfer ⟨id, account, «to», amount⟩)
      · obtain ⟨f, payee, has, hpays, b, hb⟩ := hc
        rw [hpays.run hb, Prod.mk.injEq] at hrun
        obtain ⟨rfl, rfl⟩ := hrun
        exact .inl ⟨⟨f, payee, has, hpays, b, hb⟩, rfl, by
          unfold received Ledger.touch
          rw [Ledger.setBalance_applied, Ledger.setBalance_applied]⟩
      · rcases transfer_cases hrun with ⟨rfl, hr⟩ | ⟨f, payee, has, hpays, ⟨b, hb, -⟩ | ⟨-, rfl, hr⟩⟩
        · exact .inr ⟨hc, hr, rfl⟩
        · exact absurd ⟨f, payee, has, hpays, b, hb⟩ hc
        · exact .inr ⟨hc, hr, Ledger.setBalance_applied _ _⟩
  | debit amount «to» txid =>
    unfold Move.run
    dsimp only
    cases hrun : debit ⟨id, account, amount, «to», txid⟩ now l with
    | mk l' r =>
      by_cases hc : Covered l (.debit ⟨id, account, amount, «to», txid⟩)
      · obtain ⟨a, has, hdebits⟩ := hc
        rw [hdebits.run, Prod.mk.injEq] at hrun
        obtain ⟨rfl, rfl⟩ := hrun
        exact .inl ⟨⟨a, has, hdebits⟩, rfl, by
          unfold debited Ledger.touch
          rw [Ledger.setBalance_applied]⟩
      · rcases debit_cases hrun with ⟨rfl, hr⟩ | ⟨a, has, hdebits, -⟩
        · exact .inr ⟨hc, hr, rfl⟩
        · exact absurd ⟨a, has, hdebits⟩ hc

theorem transfer_skipped {t : Transfer} {why : Text}
    (h : transfer t now l = (l', .ok (.skipped why))) : t.id ∈ l.applied := by
  unfold transfer at h
  rcases ofRes_bind_cases h with ⟨f, -, h⟩ | ⟨-, hr, -⟩
  rotate_left
  · exact absurd rfl (hr _)
  rcases ofRes_bind_cases h with ⟨payee, -, h⟩ | ⟨-, hr, -⟩
  rotate_left
  · exact absurd rfl (hr _)
  rcases ofRes_bind_cases h with ⟨v, -, h⟩ | ⟨-, hr, -⟩
  rotate_left
  · exact absurd rfl (hr _)
  rcases ofRes_bind_cases h with ⟨_, -, h⟩ | ⟨-, hr, -⟩
  rotate_left
  · exact absurd rfl (hr _)
  rw [get_bind] at h
  split at h
  · rename_i hin
    exact List.contains_iff_mem.mp hin
  rcases read_bind_cases h with ⟨has, -, h⟩ | ⟨-, hr, -⟩
  rotate_left
  · exact absurd rfl (hr _)
  rcases ofRes_bind_cases h with ⟨_, -, h⟩ | ⟨-, hr, -⟩
  rotate_left
  · exact absurd rfl (hr _)
  rw [modify_bind] at h
  rcases read_bind_cases h with ⟨b, -, h⟩ | ⟨-, hr, -⟩
  · cases h
  · exact absurd rfl (hr _)

theorem debit_skipped {d : Debit} {why : Text}
    (h : debit d now l = (l', .ok (.skipped why))) : d.id ∈ l.applied := by
  unfold debit at h
  rcases ofRes_bind_cases h with ⟨a, -, h⟩ | ⟨-, hr, -⟩
  rotate_left
  · exact absurd rfl (hr _)
  rcases ofRes_bind_cases h with ⟨v, -, h⟩ | ⟨-, hr, -⟩
  rotate_left
  · exact absurd rfl (hr _)
  rcases ofRes_bind_cases h with ⟨_, -, h⟩ | ⟨-, hr, -⟩
  rotate_left
  · exact absurd rfl (hr _)
  rw [get_bind] at h
  split at h
  · rename_i hin
    exact List.contains_iff_mem.mp hin
  rcases read_bind_cases h with ⟨has, -, h⟩ | ⟨-, hr, -⟩
  rotate_left
  · exact absurd rfl (hr _)
  rcases ofRes_bind_cases h with ⟨_, -, h⟩ | ⟨-, hr, -⟩
  · cases h
  · exact absurd rfl (hr _)

/-- What is skipped has its id among those applied. -/
theorem mem_of_skipped {why : Text} (hm : m.Is id account)
    (h : (m.run now l).2 = .ok (.skipped why)) : id ∈ l.applied := by
  cases hm with
  | transfer «to» amount => exact transfer_skipped (Prod.ext rfl h : transfer _ now l = (_, .ok (.skipped why)))
  | debit amount «to» txid => exact debit_skipped (Prod.ext rfl h : debit _ now l = (_, .ok (.skipped why)))

/-- A move that was covered is skipped once its id is among those applied. -/
theorem run_skipped (hm : m.Is id account) (hc : Covered l m) (hin : id ∈ l'.applied) :
    (m.run now l').2 = .ok (.skipped "already applied".toList) := by
  have hin' : l'.applied.contains id = true := List.contains_iff_mem.mpr hin
  cases hm with
  | transfer «to» amount =>
    obtain ⟨f, payee, has, h, -⟩ := hc
    have hzero : (amount == 0) = false := by simpa using h.some
    change (transfer ⟨id, account, «to», amount⟩ now l').2 = _
    unfold transfer
    rw [h.payer, ofRes_ok_bind, h.payee, ofRes_ok_bind, checkSats_eq_ok.mpr ⟨h.amount, rfl⟩,
      ofRes_ok_bind, hzero, Res.refuseIf_false, ofRes_ok_bind, get_bind, if_pos hin']
    rfl
  | debit amount «to» txid =>
    obtain ⟨a, has, h⟩ := hc
    have hmin : decide (amount < minPay) = false := by simpa using h.enough
    change (debit ⟨id, account, amount, «to», txid⟩ now l').2 = _
    unfold debit
    rw [h.account, ofRes_ok_bind, checkSats_eq_ok.mpr ⟨h.amount, rfl⟩, ofRes_ok_bind, hmin,
      Res.refuseIf_false, ofRes_ok_bind, get_bind, if_pos hin']
    rfl

/-! ### One request and another -/

/-- Applying the first turns the second from applied to skipped. -/
def Silenced (l : Ledger) (m₁ : Move) (now₁ : ℕ) (m₂ : Move) (now₂ : ℕ) : Prop :=
  (m₂.run now₂ l).2 = .ok .applied ∧
    ∃ why, (m₂.run now₂ (m₁.run now₁ l).1).2 = .ok (.skipped why)

theorem covered_of_applied (hm : m.Is id account) (h : (m.run now l).2 = .ok .applied) :
    Covered l m := by
  rcases run_applied hm now l with ⟨hc, -, -⟩ | ⟨-, hno, -⟩
  · exact hc
  · exact absurd h hno

theorem fresh_of_covered (hm : m.Is id account) (h : Covered l m) : id ∉ l.applied := by
  cases hm with
  | transfer «to» amount =>
    obtain ⟨f, payee, has, hpays, -⟩ := h
    exact hpays.fresh
  | debit amount «to» txid =>
    obtain ⟨a, has, hdebits⟩ := h
    exact hdebits.fresh

/-- One move silences another exactly when they share an id and both would be applied. -/
theorem silenced_iff {id₁ id₂ account₁ account₂ : Text} {m₁ m₂ : Move} {now₁ now₂ : ℕ}
    (h₁ : m₁.Is id₁ account₁) (h₂ : m₂.Is id₂ account₂) :
    Silenced l m₁ now₁ m₂ now₂ ↔ id₁ = id₂ ∧ Covered l m₁ ∧ Covered l m₂ := by
  constructor
  · rintro ⟨happlied, why, hskip⟩
    have hc₂ := covered_of_applied h₂ happlied
    have hin := mem_of_skipped h₂ hskip
    have hfresh := fresh_of_covered h₂ hc₂
    rcases run_applied h₁ now₁ l with ⟨hc₁, -, heq⟩ | ⟨-, -, heq⟩
    · rw [heq, List.mem_append, List.mem_singleton] at hin
      rcases hin with hin | rfl
      · exact absurd hin hfresh
      · exact ⟨rfl, hc₁, hc₂⟩
    · rw [heq] at hin
      exact absurd hin hfresh
  · rintro ⟨rfl, hc₁, hc₂⟩
    rcases run_applied h₁ now₁ l with ⟨-, -, heq⟩ | ⟨hno, -⟩
    · rcases run_applied h₂ now₂ l with ⟨-, happlied, -⟩ | ⟨hno, -⟩
      · refine ⟨happlied, _, run_skipped h₂ hc₂ ?_⟩
        rw [heq]
        exact List.mem_append_right _ (List.mem_singleton_self _)
      · exact absurd hc₂ hno
    · exact absurd hc₁ hno

/-! ### A payout after other requests -/

/-- The ledger after the moves. -/
def runAll : Ledger → List (Move × ℕ) → Ledger
  | l, [] => l
  | l, (m, now) :: ms => runAll (m.run now l).1 ms

/-- One of the moves, under this id, is applied. -/
def TakesId (id : Text) : Ledger → List (Move × ℕ) → Prop
  | _, [] => False
  | l, (m, now) :: ms => ((∃ account, m.Is id account) ∧ Covered l m) ∨
    TakesId id (m.run now l).1 ms

/-- The moves are verified requests of accounts other than this one. -/
def OfOthers (verify : Event → Bool) (ledgerHash a : Text) (ms : List (Move × ℕ)) : Prop :=
  ∀ m ∈ ms, ∃ r, Asked verify ledgerHash r m.1 ∧ accountOf r.account ≠ .ok a

theorem Move.Is.id_inj {id' account' : Text} (h : m.Is id account) (h' : m.Is id' account') :
    id = id' ∧ account = account' := by
  cases h with
  | transfer «to» amount =>
    cases h'
    exact ⟨rfl, rfl⟩
  | debit amount «to» txid =>
    cases h'
    exact ⟨rfl, rfl⟩

/-- The ids applied after the moves. -/
theorem mem_applied_runAll {verify : Event → Bool} {ledgerHash a : Text} :
    ∀ {ms : List (Move × ℕ)} {l : Ledger}, OfOthers verify ledgerHash a ms →
    (id ∈ (runAll l ms).applied ↔ id ∈ l.applied ∨ TakesId id l ms)
  | [], l, _ => by simp [runAll, TakesId]
  | (m, now) :: ms, l, h => by
    obtain ⟨r, hasked, -⟩ := h _ List.mem_cons_self
    have hm := hasked.is
    have ih := mem_applied_runAll (l := (m.run now l).1) fun x hx => h x (List.mem_cons_of_mem _ hx)
    have hown : (∃ account, m.Is id account) ↔ id = r.id :=
      ⟨fun ⟨_, hi⟩ => (hi.id_inj hm).1, fun he => ⟨_, he ▸ hm⟩⟩
    unfold runAll TakesId
    rw [ih, hown]
    rcases run_applied hm now l with ⟨hc, -, heq⟩ | ⟨hc, -, heq⟩
    · rw [heq, List.mem_append, List.mem_singleton]
      tauto
    · rw [heq]
      tauto

/-- Another account's request leaves an account's balance, or adds to it. -/
theorem balance_run {a : Text} {b' : ℕ} (hm : m.Is id account) (ha : accountOf a = .ok a)
    (hother : accountOf account ≠ .ok a) (h : (m.run now l).1.balance a = .ok b') :
    ∃ b, l.balance a = .ok b ∧ b ≤ b' := by
  cases hm with
  | transfer «to» amount =>
    change (transfer ⟨id, account, «to», amount⟩ now l).1.balance a = _ at h
    cases hrun : transfer ⟨id, account, «to», amount⟩ now l with
    | mk l' r =>
      rw [hrun] at h
      dsimp only at h
      have hpayer : ∀ {f payee has}, Pays l ⟨id, account, «to», amount⟩ f payee has →
          (l.setBalance f (has - amount)).balance a = l.balance a := by
        intro f payee has hpays
        rw [Ledger.balance_setBalance _ ha, if_neg]
        rintro rfl
        exact hother hpays.payer
      rcases transfer_cases hrun with ⟨rfl, -⟩ | ⟨f, payee, has, hpays, ⟨b, hb, rfl, -⟩ | ⟨-, rfl, -⟩⟩
      · exact ⟨b', h, Nat.le_refl _⟩
      · change ((l.setBalance f (has - amount)).setBalance payee (b + amount)).balance a = _ at h
        rw [Ledger.balance_setBalance _ ha] at h
        split_ifs at h with hpayee
        · subst hpayee
          obtain ⟨-, rfl⟩ := checkSats_eq_ok.mp h
          exact ⟨b, (hpayer hpays).symm.trans hb, Nat.le_add_right _ _⟩
        · rw [hpayer hpays] at h
          exact ⟨b', h, Nat.le_refl _⟩
      · rw [hpayer hpays] at h
        exact ⟨b', h, Nat.le_refl _⟩
  | debit amount «to» txid =>
    change (debit ⟨id, account, amount, «to», txid⟩ now l).1.balance a = _ at h
    cases hrun : debit ⟨id, account, amount, «to», txid⟩ now l with
    | mk l' r =>
      rw [hrun] at h
      dsimp only at h
      rcases debit_cases hrun with ⟨rfl, -⟩ | ⟨a', has, hdebits, rfl, -⟩
      · exact ⟨b', h, Nat.le_refl _⟩
      · change (l.setBalance a' (has - amount)).balance a = _ at h
        rw [Ledger.balance_setBalance _ ha, if_neg] at h
        · exact ⟨b', h, Nat.le_refl _⟩
        · rintro rfl
          exact hother hdebits.account

theorem balance_runAll {verify : Event → Bool} {ledgerHash a : Text} (ha : accountOf a = .ok a) :
    ∀ {ms : List (Move × ℕ)} {l : Ledger} {b' : ℕ}, OfOthers verify ledgerHash a ms →
    (runAll l ms).balance a = .ok b' → ∃ b, l.balance a = .ok b ∧ b ≤ b'
  | [], l, b', _, h => ⟨b', h, Nat.le_refl _⟩
  | (m, now) :: ms, l, b', hothers, h => by
    obtain ⟨r, hasked, hne⟩ := hothers _ List.mem_cons_self
    obtain ⟨b₁, hb₁, hle₁⟩ := balance_runAll ha
      (fun x hx => hothers x (List.mem_cons_of_mem _ hx)) h
    obtain ⟨b, hb, hle⟩ := balance_run hasked.is ha hne hb₁
    exact ⟨b, hb, Nat.le_trans hle hle₁⟩

/-- A withdrawal that would be debited is still debited after other accounts'
requests exactly when none took its id and its balance reads. -/
theorem debit_after_iff {verify : Event → Bool} {ledgerHash a : Text} {d : Debit}
    {ms : List (Move × ℕ)} (haccount : accountOf d.account = .ok a) (hc : Covered l (.debit d))
    (hothers : OfOthers verify ledgerHash a ms) :
    ((Move.debit d).run now (runAll l ms)).2 = .ok .applied ↔
      ¬ TakesId d.id l ms ∧ ∃ b, (runAll l ms).balance a = .ok b := by
  have hm : (Move.debit d).Is d.id d.account := .debit _ _ _
  have hfresh := fresh_of_covered hm hc
  have hids : d.id ∈ (runAll l ms).applied ↔ TakesId d.id l ms := by
    rw [mem_applied_runAll hothers]
    exact or_iff_right hfresh
  have ha := accountOf_accountOf haccount
  obtain ⟨a', has, hdebits⟩ := hc
  have hsame : a' = a := by
    have heq := hdebits.account.symm.trans haccount
    rw [Res.ok.injEq] at heq
    exact heq
  subst hsame
  have hcover : Covered (runAll l ms) (.debit d) ↔
      ¬ TakesId d.id l ms ∧ ∃ b, (runAll l ms).balance a' = .ok b := by
    rw [← hids]
    constructor
    · rintro ⟨a₁, has', hdebits'⟩
      have heq := hdebits'.account.symm.trans haccount
      rw [Res.ok.injEq] at heq
      subst heq
      exact ⟨hdebits'.fresh, has', hdebits'.balance⟩
    · rintro ⟨hnew, b, hb⟩
      obtain ⟨b₀, hb₀, hle⟩ := balance_runAll ha hothers hb
      have hhas := hdebits.balance.symm.trans hb₀
      rw [Res.ok.injEq] at hhas
      have hcovered := hdebits.covered
      exact ⟨a', b, ⟨haccount, hdebits.amount, hdebits.enough, hnew, hb, by omega⟩⟩
  rw [← hcover]
  rcases run_applied hm now (runAll l ms) with ⟨h1, h2, -⟩ | ⟨h1, h2, -⟩
  · exact ⟨fun _ => h1, fun _ => h2⟩
  · exact ⟨fun h => absurd h h2, fun h => absurd h h1⟩

/-- **Requests of different accounts leave each other alone exactly when they
do not share an id while both would be applied**; and a withdrawal that the
operator has paid out is debited after any requests of others exactly when none
of them that was applied has its id and its balance still reads. -/
theorem requests_independent_iff (verify : Event → Bool) (ledgerHash : Text) (r₁ r₂ : Request)
    (m₁ m₂ : Move) (h₁ : Asked verify ledgerHash r₁ m₁) (h₂ : Asked verify ledgerHash r₂ m₂)
    (_ : accountOf r₁.account ≠ accountOf r₂.account) (l : Ledger) (now₁ now₂ : ℕ) :
    (¬ Silenced l m₁ now₁ m₂ now₂ ↔ ¬ (r₁.id = r₂.id ∧ Covered l m₁ ∧ Covered l m₂)) ∧
    ∀ d a ms, m₂ = .debit d → accountOf r₂.account = .ok a → Covered l m₂ →
      OfOthers verify ledgerHash a ms →
      ((m₂.run now₂ (runAll l ms)).2 = .ok .applied ↔
        ¬ TakesId r₂.id l ms ∧ ∃ b, (runAll l ms).balance a = .ok b) := by
  refine ⟨not_congr (silenced_iff h₁.is h₂.is), ?_⟩
  rintro d a ms rfl haccount hc hothers
  obtain ⟨hid, hacc⟩ := h₂.is.id_inj (.debit d.amount d.to d.txid : (Move.debit d).Is d.id d.account)
  rw [hid]
  rw [hacc] at haccount
  exact debit_after_iff haccount hc hothers

/-! ### A sample -/

def sampleHash : Text := List.replicate 64 'c'

/-- A request event, its signature taken to verify. -/
def sampleRequest (pubkey : Char) (op amount «to» id : String) : Event where
  id := []
  pubkey := List.replicate 64 pubkey
  createdAt := 1
  kind := 3700
  tags := [["ledger".toList, sampleHash], ["op".toList, op.toList], ["id".toList, id.toList],
    ["amount".toList, amount.toList], ["to".toList, «to».toList]]
  content := []
  sig := []

def parsedSample (ev : Event) : Request :=
  match parseRequest (fun _ => true) ev sampleHash with
  | .ok r => r
  | _ => ⟨[], .join, [], 0, none, none, ev⟩

/-- One account's transfer of a satoshi, under an id of its choice. -/
def sampleTransferRequest (id : String) : Request :=
  parsedSample (sampleRequest 'a' "transfer" "1"
    "cccccccccccccccccccccccccccccccccccccccccccccccccccccccccccccccc" id)

/-- Another account's withdrawal. -/
def sampleWithdrawal : Request := parsedSample (sampleRequest 'b' "withdraw" "600" "tb1" "deadbeef")

/-- A ledger on which both accounts hold a thousand. -/
def sampleHolding : Ledger :=
  { sampleLedger with entries := ['a', 'b'].map fun c =>
      ⟨"Entry".toList, did ++ List.replicate 64 c, textOf 1000⟩ }

def sampleTransferMove (id : String) : Move :=
  ((sampleTransferRequest id).move []).getD (.debit ⟨[], [], 0, [], []⟩)

def sampleDebitMove : Move := (sampleWithdrawal.move []).getD (.debit ⟨[], [], 0, [], []⟩)

theorem some_of_isSome {o : Option Move} {m : Move} (h : o.isSome = true) : o = some (o.getD m) := by
  cases o with
  | none => cases h
  | some x => rfl

/-- What the samples parse to and how they end. -/
theorem sampleRequests_facts :
    (∀ id ∈ ["deadbeef", "feedbeef"], parseRequest (fun _ => true) (sampleRequest 'a' "transfer" "1"
        "cccccccccccccccccccccccccccccccccccccccccccccccccccccccccccccccc" id) sampleHash =
          .ok (sampleTransferRequest id) ∧ ((sampleTransferRequest id).move []).isSome = true ∧
        ((sampleTransferMove id).run 2 sampleHolding).2 = .ok .applied) ∧
      parseRequest (fun _ => true) (sampleRequest 'b' "withdraw" "600" "tb1" "deadbeef") sampleHash =
        .ok sampleWithdrawal ∧ (sampleWithdrawal.move []).isSome = true ∧
      (sampleDebitMove.run 3 sampleHolding).2 = .ok .applied ∧
      accountOf (sampleTransferRequest "deadbeef").account ≠ accountOf sampleWithdrawal.account ∧
      accountOf (sampleTransferRequest "feedbeef").account ≠ accountOf sampleWithdrawal.account ∧
      (sampleTransferRequest "deadbeef").id = sampleWithdrawal.id ∧
      (sampleTransferRequest "feedbeef").id ≠ sampleWithdrawal.id := by
  decide +kernel

theorem sampleTransfer_asked {id : String} (h : id ∈ ["deadbeef", "feedbeef"]) :
    Asked (fun _ => true) sampleHash (sampleTransferRequest id) (sampleTransferMove id) := by
  obtain ⟨hparse, hmove, -⟩ := sampleRequests_facts.1 id h
  exact ⟨⟨_, hparse⟩, [], some_of_isSome hmove⟩

theorem sampleDebit_asked :
    Asked (fun _ => true) sampleHash sampleWithdrawal sampleDebitMove := by
  obtain ⟨-, hparse, hmove, -⟩ := sampleRequests_facts
  exact ⟨⟨_, hparse⟩, [], some_of_isSome hmove⟩

/-- Under an id of its own the transfer leaves the withdrawal alone. -/
theorem requests_independent_sample :
    Asked (fun _ => true) sampleHash (sampleTransferRequest "feedbeef")
      (sampleTransferMove "feedbeef") ∧
    Asked (fun _ => true) sampleHash sampleWithdrawal sampleDebitMove ∧
    ¬ Silenced sampleHolding (sampleTransferMove "feedbeef") 2 sampleDebitMove 3 := by
  have h₁ := sampleTransfer_asked (by decide : "feedbeef" ∈ ["deadbeef", "feedbeef"])
  obtain ⟨-, -, -, -, -, hne, -, hid⟩ := sampleRequests_facts
  exact ⟨h₁, sampleDebit_asked, (requests_independent_iff _ _ _ _ _ _ h₁ sampleDebit_asked hne
    sampleHolding 2 3).1.mpr fun h => hid h.1⟩

/-- Under the withdrawal's id it silences it. -/
theorem transfer_silences : ¬ ∀ (verify : Event → Bool) (ledgerHash : Text) (r₁ r₂ : Request)
    (m₁ m₂ : Move), Asked verify ledgerHash r₁ m₁ → Asked verify ledgerHash r₂ m₂ →
    accountOf r₁.account ≠ accountOf r₂.account → ∀ (l : Ledger) (now₁ now₂ : ℕ),
      ¬ Silenced l m₁ now₁ m₂ now₂ := by
  intro h
  have h₁ := sampleTransfer_asked (by decide : "deadbeef" ∈ ["deadbeef", "feedbeef"])
  obtain ⟨hall, -, -, hdebit, hne, -, hid, -⟩ := sampleRequests_facts
  have htransfer := (hall "deadbeef" (by decide)).2.2
  exact h _ _ _ _ _ _ h₁ sampleDebit_asked hne sampleHolding 2 3 ((silenced_iff h₁.is
    sampleDebit_asked.is).mpr ⟨hid, covered_of_applied h₁.is htransfer,
      covered_of_applied sampleDebit_asked.is hdebit⟩)

end Teller

end Sidestr
