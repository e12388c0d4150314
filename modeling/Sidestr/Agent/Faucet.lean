/-
# The faucet

`sidestr-agent faucet` (`faucet.rs`) answers signed requests with grants. It
remembers when each destination script was paid and when recent grants were
made, in memory and in a state file, and holds back the coins a grant spent.
The file is written only after an answer has returned a line to log; building
that line slices 16 digits off the script's hex.

A run is a sequence of requests and restarts. What a request meets (the chain's
coins, the transaction built of the free ones, whether anyone took it) comes
with it; the builder is any that spends of the coins it is given. Beside the
faucet's own state the run records what was granted, and which of the coins
granted since the last restart every view since has listed.

Key definitions: `answer`, `System.step`, `Slices`, `Limits`.
Key theorems: `answer_panics_iff`, `step_keeps`, `faucet_limits`,
`short_script_forgets`.
-/
import Sidestr.Core.PegTweak
import Sidestr.Wallet.Coins
import Sidestr.Wallet.Spend

namespace Sidestr

namespace Faucet

/-- What one grant is and how often, as far as the limits go. -/
structure Grant where
  perAddressSecs : ℕ
  perHour : ℕ

structure Remembered where
  /-- Destination script hex and when it was last paid. -/
  paid : List (Bytes × ℕ) := []
  /-- When recent grants were made, oldest first. -/
  recent : List ℕ := []
  deriving DecidableEq

/-- What the process has in memory. -/
structure Memory where
  remembered : Remembered := {}
  /-- The coins that grants spent, and when. -/
  held : List (OutPoint × ℕ) := []
  deriving DecidableEq

inductive FaucetError
  | destination
  | notPaid
  | replay
  | build
  | nothingTook
  deriving DecidableEq

/-- The line an answer returns. -/
inductive Line
  | withinWindow (script : Bytes)
  | hourlyLimit
  | paid (script : Bytes)
  deriving DecidableEq

/-- A builder of grants, which spends of the coins it is given. -/
structure Builder where
  build : List Wallet.Coin → Bytes → Except FaucetError (List OutPoint)
  spends : ∀ free dest inputs, build free dest = .ok inputs →
    ∀ o ∈ inputs, o ∈ free.map Wallet.Coin.outpoint

/-- A request and what it meets. -/
structure Ask where
  now : ℕ
  /-- The event verifies and is a request for this chain. -/
  verified : Bool
  /-- The script its destination resolves to. -/
  resolved : Except FaucetError Bytes
  /-- The faucet's coins on a fresh replay of the block file. -/
  coins : Except FaucetError (List Wallet.Coin)
  builder : Builder
  /-- The producer or a relay took the transaction. -/
  taken : Bool

/-- A grant that was published. -/
structure Granted where
  script : Bytes
  time : ℕ
  inputs : List OutPoint
  deriving DecidableEq

/-- What an answer leaves in memory, returns and has published. -/
structure Answered where
  memory : Memory
  outcome : Res FaucetError (Option Line)
  grant : Option Granted := none

/-- `&key_hex[..16]`. -/
def sliceKey (key : Bytes) : Res FaucetError Bytes :=
  if key.length < 16 then .panic else .ok (key.take 16)

def recentPopped (now : ℕ) (recent : List ℕ) : List ℕ := recent.dropWhile fun t => 3600 ≤ now - t

def heldRetained (now : ℕ) (coins : List Wallet.Coin) (held : List (OutPoint × ℕ)) :
    List (OutPoint × ℕ) :=
  held.filter fun h => coins.any (fun c => c.outpoint == h.1) && decide (now - h.2 < 1800)

def isHeld (held : List (OutPoint × ℕ)) (o : OutPoint) : Bool := held.any fun h => h.1 == o

def holdAll (now : ℕ) (inputs : List OutPoint) (held : List (OutPoint × ℕ)) :
    List (OutPoint × ℕ) :=
  inputs.map (fun o => (o, now)) ++ held.filter fun h => !inputs.contains h.1

/-- Not a destination the faucet pays. -/
def unpaidDestination (me dest : Bytes) : Bool := isOpReturn dest || dest == me

/-- Paid within its window: the answer to the script is to skip it. -/
def withinWindow (g : Grant) (now : ℕ) (m : Memory) (dest : Bytes) : Bool :=
  match m.remembered.paid.lookup (hexEncode dest) with
  | some t => decide (now - t < g.perAddressSecs)
  | none => false

/-- A grant, published: what is remembered, then the line. -/
def grantTo (now : ℕ) (m : Memory) (recent : List ℕ) (held : List (OutPoint × ℕ)) (dest : Bytes)
    (inputs : List OutPoint) : Answered where
  memory :=
    { remembered := ⟨(hexEncode dest, now) :: m.remembered.paid, recent ++ [now]⟩
      held := holdAll now inputs held }
  outcome := sliceKey (hexEncode dest) >>= fun k => .ok (some (.paid k))
  grant := some ⟨dest, now, inputs⟩

/-- The part after the limits: the coins, the transaction, its publication. -/
def pay (a : Ask) (m : Memory) (recent : List ℕ) (dest : Bytes) : Answered :=
  let popped : Memory := { m with remembered := { m.remembered with recent } }
  match a.coins with
  | .error e => ⟨popped, .err e, none⟩
  | .ok coins =>
    let held := heldRetained a.now coins m.held
    let retained : Memory := { popped with held }
    match a.builder.build (coins.filter fun c => !isHeld held c.outpoint) dest with
    | .error e => ⟨retained, .err e, none⟩
    | .ok inputs =>
      if a.taken then grantTo a.now m recent held dest inputs
      else ⟨retained, .err .nothingTook, none⟩

def answer (g : Grant) (me : Bytes) (a : Ask) (m : Memory) : Answered :=
  if !a.verified then ⟨m, .ok none, none⟩
  else
    match a.resolved with
    | .error e => ⟨m, .err e, none⟩
    | .ok dest =>
      if unpaidDestination me dest then ⟨m, .err .notPaid, none⟩
      else if withinWindow g a.now m dest then
        ⟨m, sliceKey (hexEncode dest) >>= fun k => .ok (some (.withinWindow k)), none⟩
      else
        let recent := recentPopped a.now m.remembered.recent
        if g.perHour ≤ recent.length then
          ⟨{ m with remembered := { m.remembered with recent } }, .ok (some .hourlyLimit), none⟩
        else pay a m recent dest

/-! ### Runs -/

inductive Event
  | ask (a : Ask)
  | restart

/-- The faucet with its file, and what its run has done. -/
structure System where
  file : Remembered := {}
  memory : Memory := {}
  /-- The grants published, oldest first. -/
  log : List Granted := []
  /-- The coins granted since the last restart that every view since has listed, and when. -/
  watch : List (OutPoint × ℕ) := []
  /-- Some grant spent a coin of the watch less than 1800 seconds after its grant. -/
  respent : Bool := false
  panicked : Bool := false
  /-- The latest request's time. -/
  now : ℕ := 0

namespace System

/-- The process starts from its file. -/
def restarted (s : System) : System := { s with memory := { remembered := s.file }, watch := [] }

/-- The view an answer takes of the chain, when it comes to that. -/
def viewOf (g : Grant) (me : Bytes) (a : Ask) (m : Memory) : Option (List Wallet.Coin) :=
  if !a.verified then none
  else
    match a.resolved with
    | .error _ => none
    | .ok dest =>
      if unpaidDestination me dest then none
      else if withinWindow g a.now m dest then none
      else if g.perHour ≤ (recentPopped a.now m.remembered.recent).length then none
      else a.coins.toOption

def watchAfter (view : Option (List Wallet.Coin)) (watch : List (OutPoint × ℕ)) :
    List (OutPoint × ℕ) :=
  match view with
  | some coins => watch.filter fun w => coins.any fun c => c.outpoint == w.1
  | none => watch

/-- What is recorded of an answer. -/
def record (s : System) (a : Ask) (view : Option (List Wallet.Coin)) (r : Answered) : System :=
  let watch := watchAfter view s.watch
  match r.grant with
  | none => { s with memory := r.memory, watch, now := a.now }
  | some d =>
    { s with
      memory := r.memory
      log := s.log ++ [d]
      watch := watch ++ d.inputs.map fun o => (o, d.time)
      respent := s.respent || watch.any fun w => d.inputs.contains w.1 && decide (d.time < w.2 + 1800)
      now := a.now }

/-- A line is logged and the file written; a panic ends the process, which starts again. -/
def settle (s : System) (r : Answered) : System :=
  match r.outcome with
  | .ok (some _) => { s with file := s.memory.remembered }
  | .ok none => s
  | .err _ => s
  | .panic => { s with panicked := true }.restarted

def step (g : Grant) (me : Bytes) (s : System) : Event → System
  | .restart => s.restarted
  | .ask a => (s.record a (viewOf g me a s.memory) (answer g me a s.memory)).settle
      (answer g me a s.memory)

def run (g : Grant) (me : Bytes) : System → List Event → System
  | s, [] => s
  | s, e :: es => run g me (s.step g me e) es

end System

/-- The request comes to the slice with a script of fewer than 8 bytes: within
its window, or paid. -/
def Slices (g : Grant) (me : Bytes) (a : Ask) (m : Memory) : Prop :=
  a.verified = true ∧ ∃ dest, a.resolved = .ok dest ∧ (unpaidDestination me dest) = false ∧
    dest.length < 8 ∧ (withinWindow g a.now m dest = true ∨
      (withinWindow g a.now m dest = false ∧
        (recentPopped a.now m.remembered.recent).length < g.perHour ∧
        ∃ coins inputs, a.coins = .ok coins ∧
          a.builder.build (coins.filter fun c =>
            !isHeld (heldRetained a.now coins m.held) c.outpoint) dest = .ok inputs ∧
          a.taken = true))

/-- The clock does not go back, and no request comes to the slice with a short script. -/
def System.Meets (g : Grant) (me : Bytes) : System → List Event → Prop
  | _, [] => True
  | s, .restart :: es => (s.step g me .restart).Meets g me es
  | s, .ask a :: es => s.now ≤ a.now ∧ ¬ Slices g me a s.memory ∧
    (s.step g me (.ask a)).Meets g me es

/-- The limits, of what a run has done. -/
structure Limits (g : Grant) (s : System) : Prop where
  noPanic : s.panicked = false
  perAddress : s.log.Pairwise fun a b => a.script = b.script → a.time + g.perAddressSecs ≤ b.time
  perHour : ∀ start, ((s.log.map Granted.time).filter fun t =>
    decide (start ≤ t) && decide (t < start + 3600)).length ≤ g.perHour
  coins : s.respent = false

theorem hexEncode_short_iff (dest : Bytes) : (hexEncode dest).length < 16 ↔ dest.length < 8 := by
  rw [length_hexEncode]
  omega

theorem sliceKey_panic {key : Bytes} {f : Bytes → Line} :
    (sliceKey key >>= fun k => .ok (some (f k))) = (.panic : Res FaucetError (Option Line)) ↔
      key.length < 16 := by
  unfold sliceKey
  split_ifs with h
  · simp [h]
  · simp [h]

/-- An answer panics just when it comes to the slice with a short script. -/
theorem answer_panics_iff (g : Grant) (me : Bytes) (a : Ask) (m : Memory) :
    (answer g me a m).outcome = .panic ↔ Slices g me a m := by
  unfold answer Slices
  cases hv : a.verified with
  | false => simp
  | true =>
    cases hr : a.resolved with
    | error e => simp
    | ok dest =>
      cases hme : unpaidDestination me dest with
      | true => simp [hme]
      | false =>
        cases hw : withinWindow g a.now m dest with
        | true => simp [hme, hw, sliceKey_panic, hexEncode_short_iff]
        | false =>
          by_cases hh : g.perHour ≤ (recentPopped a.now m.remembered.recent).length
          · simp [hme, hw, hh, Nat.not_lt.mpr hh]
          · have hh' := Nat.not_le.mp hh
            cases hc : a.coins with
            | error e => simp [hme, hw, hh, pay, hc]
            | ok coins =>
              cases hb : a.builder.build
                  (coins.filter fun c => !isHeld (heldRetained a.now coins m.held) c.outpoint) dest with
              | error e => simp [hme, hw, hh, pay, hc, hb]
              | ok inputs =>
                cases ht : a.taken with
                | false => simp [hme, hw, hh, pay, hc, hb, ht]
                | true =>
                  simp [hme, hw, hh, hh', pay, hc, hb, ht, grantTo, sliceKey_panic,
                    hexEncode_short_iff]

/-! ### What a run keeps -/

/-- The last grants remembered: all but a first part of the log, which is an
hour old. -/
def RecentOf (now : ℕ) (log : List Granted) (recent : List ℕ) : Prop :=
  ∃ old, log.map Granted.time = old ++ recent ∧ ∀ t ∈ old, t + 3600 ≤ now

/-- Each grant's script is remembered, with a time not before it. -/
def PaidOf (log : List Granted) (paid : List (Bytes × ℕ)) : Prop :=
  ∀ d ∈ log, ∃ t, paid.lookup (hexEncode d.script) = some t ∧ d.time ≤ t

/-- Memory and file remember the log. -/
structure Remembers (now : ℕ) (log : List Granted) (r : Remembered) : Prop where
  paid : PaidOf log r.paid
  recent : RecentOf now log r.recent

/-- A coin of the watch is held, or its half hour is over. -/
def Holds (now : ℕ) (watch held : List (OutPoint × ℕ)) : Prop :=
  ∀ w ∈ watch, w.2 + 1800 ≤ now ∨ ∃ t, (w.1, t) ∈ held ∧ w.2 ≤ t

/-- What is kept over an answer. -/
structure Live (g : Grant) (s : System) : Prop where
  limits : Limits g s
  past : ∀ d ∈ s.log, d.time ≤ s.now
  memory : Remembers s.now s.log s.memory.remembered
  holds : Holds s.now s.watch s.memory.held

/-- What is kept over a run: also in the file. -/
structure Keeps (g : Grant) (s : System) : Prop extends Live g s where
  file : Remembers s.now s.log s.file

theorem RecentOf.later {now now' : ℕ} {log : List Granted} {recent : List ℕ}
    (h : RecentOf now log recent) (hle : now ≤ now') : RecentOf now' log recent := by
  obtain ⟨old, hlog, hold⟩ := h
  exact ⟨old, hlog, fun t ht => (hold t ht).trans hle⟩

theorem Remembers.later {now now' : ℕ} {log : List Granted} {r : Remembered}
    (h : Remembers now log r) (hle : now ≤ now') : Remembers now' log r :=
  ⟨h.paid, h.recent.later hle⟩

theorem Holds.later {now now' : ℕ} {watch held : List (OutPoint × ℕ)} (h : Holds now watch held)
    (hle : now ≤ now') : Holds now' watch held := fun w hw =>
  (h w hw).imp (fun ho => ho.trans hle) id

/-- What is popped is an hour old. -/
theorem RecentOf.popped {now : ℕ} {log : List Granted} {recent : List ℕ}
    (h : RecentOf now log recent) : RecentOf now log (recentPopped now recent) := by
  obtain ⟨old, hlog, hold⟩ := h
  refine ⟨old ++ recent.takeWhile fun t => 3600 ≤ now - t, ?_, fun t ht => ?_⟩
  · unfold recentPopped
    rw [List.append_assoc, List.takeWhile_append_dropWhile, hlog]
  · rcases List.mem_append.mp ht with ht | ht
    · exact hold t ht
    · have := List.mem_takeWhile_imp ht
      simp only [decide_eq_true_eq] at this
      omega

/-- A coin still listed that is not held any more has had its half hour. -/
theorem Holds.retained {now : ℕ} {watch held : List (OutPoint × ℕ)} {coins : List Wallet.Coin}
    (h : Holds now watch held) :
    Holds now (System.watchAfter (some coins) watch) (heldRetained now coins held) := by
  intro w hw
  obtain ⟨hw, hlisted⟩ := List.mem_filter.mp hw
  rcases h w hw with hold | ⟨t, ht, hle⟩
  · exact .inl hold
  · by_cases hfresh : now - t < 1800
    · refine .inr ⟨t, List.mem_filter.mpr ⟨ht, ?_⟩, hle⟩
      rw [hlisted, decide_eq_true hfresh]
      rfl
    · exact .inl (by omega)

/-- The grants of any hour are among the last hour's when the last is new. -/
theorem hour_of_append {log : List Granted} {recent : List ℕ} {now perHour : ℕ}
    (hrecent : RecentOf now log recent) (hlimit : recent.length < perHour)
    (hhour : ∀ start, ((log.map Granted.time).filter fun t =>
      decide (start ≤ t) && decide (t < start + 3600)).length ≤ perHour) (d : Granted)
    (hd : d.time = now) (start : ℕ) : (((log ++ [d]).map Granted.time).filter fun t =>
      decide (start ≤ t) && decide (t < start + 3600)).length ≤ perHour := by
  rw [List.map_append, List.filter_append, List.length_append, List.map_singleton, hd]
  by_cases hin : start ≤ now ∧ now < start + 3600
  · -- the ones of this hour before it are remembered
    obtain ⟨old, hlog, hold⟩ := hrecent
    have hnone : (old.filter fun t => decide (start ≤ t) && decide (t < start + 3600)) = [] := by
      rw [List.filter_eq_nil_iff]
      intro t ht
      have := hold t ht
      simp only [Bool.and_eq_true, decide_eq_true_eq]
      omega
    have hle := List.length_filter_le
      (fun t => decide (start ≤ t) && decide (t < start + 3600)) recent
    rw [hlog, List.filter_append, hnone, List.nil_append]
    have hone := List.length_filter_le
      (fun t => decide (start ≤ t) && decide (t < start + 3600)) [now]
    simp only [List.length_singleton] at hone
    omega
  · have hzero : ([now].filter fun t => decide (start ≤ t) && decide (t < start + 3600)) = [] := by
      rw [List.filter_eq_nil_iff]
      intro t ht
      rw [List.mem_singleton.mp ht]
      simpa using hin
    rw [hzero]
    exact hhour start

/-- An answer that publishes nothing keeps what is remembered and held. -/
structure Quiet (a : Ask) (view : Option (List Wallet.Coin)) (m : Memory) (r : Answered) : Prop where
  grant : r.grant = none
  paid : r.memory.remembered.paid = m.remembered.paid
  recent : r.memory.remembered.recent = m.remembered.recent ∨
    r.memory.remembered.recent = recentPopped a.now m.remembered.recent
  held : (view = none ∧ r.memory.held = m.held) ∨
    ∃ coins, view = some coins ∧ r.memory.held = heldRetained a.now coins m.held

/-- An answer that publishes a grant: within both limits, of coins that are not held. -/
structure Pays (g : Grant) (a : Ask) (view : Option (List Wallet.Coin)) (m : Memory) (r : Answered)
    (dest : Bytes) (inputs : List OutPoint) (coins : List Wallet.Coin) : Prop where
  view : view = some coins
  grant : r.grant = some ⟨dest, a.now, inputs⟩
  window : withinWindow g a.now m dest = false
  hour : (recentPopped a.now m.remembered.recent).length < g.perHour
  free : ∀ o ∈ inputs, isHeld (heldRetained a.now coins m.held) o = false
  remembered : r.memory.remembered = ⟨(hexEncode dest, a.now) :: m.remembered.paid,
    recentPopped a.now m.remembered.recent ++ [a.now]⟩
  held : r.memory.held = holdAll a.now inputs (heldRetained a.now coins m.held)
  line : r.outcome ≠ .panic → ∃ line, r.outcome = .ok (some line)

theorem grantTo_line {now : ℕ} {m : Memory} {recent : List ℕ} {held : List (OutPoint × ℕ)}
    {dest : Bytes} {inputs : List OutPoint}
    (h : (grantTo now m recent held dest inputs).outcome ≠ .panic) :
    ∃ line, (grantTo now m recent held dest inputs).outcome = .ok (some line) := by
  unfold grantTo sliceKey at *
  split_ifs at * with hshort
  · exact absurd rfl h
  · exact ⟨_, rfl⟩

/-- Every answer publishes nothing or pays. -/
theorem answer_cases (g : Grant) (me : Bytes) (a : Ask) (m : Memory) :
    Quiet a (System.viewOf g me a m) m (answer g me a m) ∨
      ∃ dest inputs coins,
        Pays g a (System.viewOf g me a m) m (answer g me a m) dest inputs coins := by
  unfold answer System.viewOf
  cases hv : a.verified with
  | false => exact .inl ⟨rfl, rfl, .inl rfl, .inl ⟨rfl, rfl⟩⟩
  | true =>
    cases hr : a.resolved with
    | error e => exact .inl ⟨rfl, rfl, .inl rfl, .inl ⟨rfl, rfl⟩⟩
    | ok dest =>
      simp only [Bool.not_true, Bool.false_eq_true, if_false]
      split_ifs with hme hw hh
      · exact .inl ⟨rfl, rfl, .inl rfl, .inl ⟨rfl, rfl⟩⟩
      · exact .inl ⟨rfl, rfl, .inl rfl, .inl ⟨rfl, rfl⟩⟩
      · exact .inl ⟨rfl, rfl, .inr rfl, .inl ⟨rfl, rfl⟩⟩
      · unfold pay
        cases hc : a.coins with
        | error e => exact .inl ⟨rfl, rfl, .inr rfl, .inl ⟨rfl, rfl⟩⟩
        | ok coins =>
          simp only
          cases hb : a.builder.build
              (coins.filter fun c => !isHeld (heldRetained a.now coins m.held) c.outpoint) dest with
          | error e => exact .inl ⟨rfl, rfl, .inr rfl, .inr ⟨coins, rfl, rfl⟩⟩
          | ok inputs =>
            simp only
            split_ifs with ht
            · refine .inr ⟨dest, inputs, coins, rfl, rfl, by simpa using hw, Nat.not_le.mp hh, ?_, rfl,
                rfl, grantTo_line⟩
              intro o ho
              obtain ⟨c, hmem, rfl⟩ := List.mem_map.mp (a.builder.spends _ _ _ hb o ho)
              simpa using (List.mem_filter.mp hmem).2
            · exact .inl ⟨rfl, rfl, .inr rfl, .inr ⟨coins, rfl, rfl⟩⟩

theorem hexEncode_injective {a b : Bytes} (h : hexEncode a = hexEncode b) : a = b := by
  have := congrArg hexDecode h
  rwa [hexDecode_hexEncode, hexDecode_hexEncode, Option.some.injEq] at this

/-! ### One step -/

/-- Outside its window, a script was last paid its seconds ago. -/
theorem PaidOf.outside {g : Grant} {now : ℕ} {log : List Granted} {m : Memory} {dest : Bytes}
    (h : PaidOf log m.remembered.paid) (hout : withinWindow g now m dest = false) {d : Granted}
    (hd : d ∈ log) (hscript : d.script = dest) (hpast : d.time ≤ now) :
    d.time + g.perAddressSecs ≤ now := by
  obtain ⟨t, hlook, hle⟩ := h d hd
  unfold withinWindow at hout
  rw [← hscript, hlook] at hout
  simp only [decide_eq_false_iff_not] at hout
  omega

theorem PaidOf.append {now : ℕ} {log : List Granted} {paid : List (Bytes × ℕ)}
    (h : PaidOf log paid) (hpast : ∀ d ∈ log, d.time ≤ now) (dest : Bytes)
    (inputs : List OutPoint) :
    PaidOf (log ++ [⟨dest, now, inputs⟩]) ((hexEncode dest, now) :: paid) := by
  intro d hd
  by_cases hsame : d.script = dest
  · refine ⟨now, by rw [hsame, List.lookup_cons_self], ?_⟩
    rcases List.mem_append.mp hd with hd | hd
    · exact hpast d hd
    · rw [List.mem_singleton.mp hd]
  · rcases List.mem_append.mp hd with hd | hd
    · have hne : (hexEncode d.script == hexEncode dest) = false :=
        beq_false_of_ne fun heq => hsame (hexEncode_injective heq)
      rw [List.lookup_cons, hne]
      exact h d hd
    · exact absurd (by rw [List.mem_singleton.mp hd]) hsame

theorem RecentOf.append {now : ℕ} {log : List Granted} {recent : List ℕ}
    (h : RecentOf now log recent) (d : Granted) : RecentOf now (log ++ [d]) (recent ++ [d.time]) := by
  obtain ⟨old, hlog, hold⟩ := h
  exact ⟨old, by rw [List.map_append, hlog, List.append_assoc, List.map_singleton], hold⟩

/-- A coin of the watch that is not held has had its half hour. -/
theorem Holds.free {now : ℕ} {watch held : List (OutPoint × ℕ)} (h : Holds now watch held)
    {w : OutPoint × ℕ} (hw : w ∈ watch) (hfree : isHeld held w.1 = false) : w.2 + 1800 ≤ now := by
  rcases h w hw with hold | ⟨t, ht, -⟩
  · exact hold
  · have := List.any_eq_false.mp hfree _ ht
    simp at this

theorem Holds.hold {now : ℕ} {watch held : List (OutPoint × ℕ)} {inputs : List OutPoint}
    (h : Holds now watch held) (hfree : ∀ o ∈ inputs, isHeld held o = false) :
    Holds now (watch ++ inputs.map fun o => (o, now)) (holdAll now inputs held) := by
  intro w hw
  rcases List.mem_append.mp hw with hw | hw
  · by_cases hin : w.1 ∈ inputs
    · exact .inl (h.free hw (hfree _ hin))
    · refine (h w hw).imp id fun ⟨t, ht, hle⟩ => ⟨t, ?_, hle⟩
      refine List.mem_append_right _ (List.mem_filter.mpr ⟨ht, ?_⟩)
      simpa using hin
  · obtain ⟨o, ho, rfl⟩ := List.mem_map.mp hw
    exact .inr ⟨now, List.mem_append_left _ (List.mem_map.mpr ⟨o, ho, rfl⟩), le_rfl⟩

theorem Keeps.restarted {g : Grant} {s : System} (h : Keeps g s) : Keeps g s.restarted where
  limits := ⟨h.limits.noPanic, h.limits.perAddress, h.limits.perHour, h.limits.coins⟩
  past := h.past
  memory := h.file
  holds := by simp [System.restarted, Holds]
  file := h.file

/-- What an answer that publishes nothing leaves. -/
theorem Quiet.live {g : Grant} {s : System} {a : Ask} {view : Option (List Wallet.Coin)}
    {r : Answered} (hq : Quiet a view s.memory r) (h : Keeps g s) (hle : s.now ≤ a.now) :
    Keeps g (s.record a view r) := by
  have hrecent : RecentOf a.now s.log r.memory.remembered.recent := by
    rcases hq.recent with heq | heq
    · rw [heq]
      exact h.memory.recent.later hle
    · rw [heq]
      exact (h.memory.recent.later hle).popped
  have hholds : Holds a.now (System.watchAfter view s.watch) r.memory.held := by
    rcases hq.held with ⟨rfl, heq⟩ | ⟨coins, rfl, heq⟩
    · rw [heq]
      exact h.holds.later hle
    · rw [heq]
      exact (h.holds.later hle).retained
  unfold System.record
  rw [hq.grant]
  exact
    { limits := ⟨h.limits.noPanic, h.limits.perAddress, h.limits.perHour, h.limits.coins⟩
      past := fun d hd => (h.past d hd).trans hle
      memory := ⟨by rw [hq.paid]; exact h.memory.paid, hrecent⟩
      holds := hholds
      file := h.file.later hle }

/-- What a grant leaves, but for the file. -/
theorem Pays.live {g : Grant} {s : System} {a : Ask} {view : Option (List Wallet.Coin)}
    {r : Answered} {dest : Bytes} {inputs : List OutPoint} {coins : List Wallet.Coin}
    (hp : Pays g a view s.memory r dest inputs coins) (h : Keeps g s) (hle : s.now ≤ a.now) :
    Live g (s.record a view r) := by
  have hpast : ∀ d ∈ s.log, d.time ≤ a.now := fun d hd => (h.past d hd).trans hle
  have hrecent := (h.memory.recent.later hle).popped
  have hholds : Holds a.now (System.watchAfter (some coins) s.watch)
      (heldRetained a.now coins s.memory.held) := (h.holds.later hle).retained
  obtain rfl := hp.view
  unfold System.record
  rw [hp.grant]
  refine
    { limits := ⟨h.limits.noPanic, ?_, ?_, ?_⟩
      past := ?_
      memory := ?_
      holds := ?_ }
  · refine List.pairwise_append.mpr ⟨h.limits.perAddress, List.pairwise_singleton _ _, ?_⟩
    intro d hd e he hscript
    obtain rfl := List.mem_singleton.mp he
    exact h.memory.paid.outside hp.window hd hscript (hpast d hd)
  · exact hour_of_append hrecent hp.hour h.limits.perHour _ rfl
  · -- a coin of the watch that the grant spends is not held, so it is old
    simp only [h.limits.coins, Bool.false_or, List.any_eq_false, Bool.and_eq_true,
      List.contains_iff_mem, decide_eq_true_eq, not_and, not_lt]
    exact fun w hw hin => hholds.free hw (hp.free _ hin)
  · intro d hd
    rcases List.mem_append.mp hd with hd | hd
    · exact hpast d hd
    · rw [List.mem_singleton.mp hd]
  · rw [hp.remembered]
    exact ⟨h.memory.paid.append hpast dest inputs, hrecent.append ⟨dest, a.now, inputs⟩⟩
  · rw [hp.held]
    exact hholds.hold hp.free

/-- The file is written after a line. -/
theorem Live.settled {g : Grant} {s : System} {r : Answered} (h : Live g s)
    (hline : ∃ line, r.outcome = .ok (some line)) : Keeps g (s.settle r) := by
  obtain ⟨line, hline⟩ := hline
  unfold System.settle
  rw [hline]
  exact { h with
    limits := ⟨h.limits.noPanic, h.limits.perAddress, h.limits.perHour, h.limits.coins⟩
    file := h.memory }

theorem Keeps.settled {g : Grant} {s : System} {r : Answered} (h : Keeps g s)
    (hpanic : r.outcome ≠ .panic) : Keeps g (s.settle r) := by
  cases ho : r.outcome with
  | ok line =>
    cases line with
    | none =>
      unfold System.settle
      rw [ho]
      exact h
    | some line => exact h.toLive.settled ⟨line, ho⟩
  | err e =>
    unfold System.settle
    rw [ho]
    exact h
  | panic => exact absurd ho hpanic

/-- One step keeps everything, where no request comes to the slice with a short script. -/
theorem step_keeps {g : Grant} {me : Bytes} {s : System} {a : Ask} (h : Keeps g s)
    (hle : s.now ≤ a.now) (hslices : ¬ Slices g me a s.memory) :
    Keeps g (s.step g me (.ask a)) := by
  have hpanic : (answer g me a s.memory).outcome ≠ .panic := fun heq =>
    hslices ((answer_panics_iff g me a s.memory).mp heq)
  unfold System.step
  rcases answer_cases g me a s.memory with hq | ⟨dest, inputs, coins, hp⟩
  · exact (hq.live h hle).settled hpanic
  · exact (hp.live h hle).settled (hp.line hpanic)

theorem run_keeps {g : Grant} {me : Bytes} {es : List Event} {s : System} (h : Keeps g s)
    (hmeets : s.Meets g me es) : Keeps g (s.run g me es) := by
  induction es generalizing s with
  | nil => exact h
  | cons e es ih =>
    cases e with
    | restart => exact ih h.restarted hmeets
    | ask a =>
      obtain ⟨hle, hslices, hmeets⟩ := hmeets
      exact ih (step_keeps h hle hslices) hmeets

theorem Keeps.start (g : Grant) : Keeps g {} where
  limits := ⟨rfl, List.Pairwise.nil, by simp, rfl⟩
  past := by simp
  memory := ⟨by simp [PaidOf], [], rfl, by simp⟩
  holds := by simp [Holds]
  file := ⟨by simp [PaidOf], [], rfl, by simp⟩

/-- **The faucet's limits hold over every run in which no request comes to the
slice with a script of fewer than 8 bytes**: no panic, one grant per script
per window, `perHour` grants an hour, and no coin granted twice in half an hour. -/
theorem faucet_limits (g : Grant) (me : Bytes) (es : List Event)
    (h : System.Meets g me {} es) : Limits g (System.run g me {} es) :=
  (run_keeps (Keeps.start g) h).limits

/-- One grant a day to a script, 24 an hour. -/
def dailyGrant : Grant := ⟨86400, 24⟩

/-- A builder that spends every coin it is given. -/
def spendAll : Builder where
  build := fun free _ => .ok (free.map Wallet.Coin.outpoint)
  spends := by
    rintro free dest inputs h o ho
    rwa [← Except.ok.inj h] at ho

/-- A request for the script that finds one coin, whose grant is taken. -/
def askFor (script : Bytes) (txid : Txid) (now : ℕ) : Ask where
  now
  verified := true
  resolved := .ok script
  coins := .ok [{ outpoint := ⟨txid, 0⟩, value := 10000, height := 1, coinbase := false }]
  builder := spendAll
  taken := true

/-- A taproot script asks, the faucet restarts, and the script asks again. -/
theorem faucet_limits_restarted :
    Limits dailyGrant (System.run dailyGrant [0x52] {}
      [.ask (askFor (0x51 :: 0x20 :: List.replicate 32 7) 1 1000), .restart,
        .ask (askFor (0x51 :: 0x20 :: List.replicate 32 7) 2 1060)]) := by
  have hlong : ∀ {txid now m}, ¬ Slices dailyGrant [0x52]
      (askFor (0x51 :: 0x20 :: List.replicate 32 7) txid now) m := by
    rintro txid now m ⟨-, dest, hdest, -, hshort, -⟩
    rw [← Except.ok.inj hdest] at hshort
    exact absurd hshort (by decide)
  exact faucet_limits _ _ _ ⟨by decide, hlong, by decide, hlong, trivial⟩

/-- The script `51` asks twice within a minute: each answer publishes a grant and
panics before the file is written. -/
theorem short_script_forgets :
    let s := System.run dailyGrant [0x52] {} [.ask (askFor [0x51] 1 1000), .ask (askFor [0x51] 2 1060)]
    s.log = [⟨[0x51], 1000, [⟨1, 0⟩]⟩, ⟨[0x51], 1060, [⟨2, 0⟩]⟩] ∧ s.panicked = true ∧
      s.file = {} ∧ ¬ Limits dailyGrant s := by
  refine ⟨by decide, by decide, by decide, fun h => ?_⟩
  exact absurd h.noPanic (by decide)

end Faucet

end Sidestr
