/-
# The router

One-hop forwarding (`route.rs`): a hub that got an HTLC with a route offers it
on the next channel and carries the settle or the fail back. A forward is
recorded under the downstream channel and the hash before it is offered. The
router reads the channels it is given and returns actions; the host carries
them out.

A hub must keep the upstream HTLC while the hash still has force downstream.
`tick` checks all of it for the forward it fails; the other calls do not.

Key definitions: `Router`, `RouteAction`, `Router.onUpdate`, `onDropped`,
`forwardAttempted`, `tick`, `Router.act`.

Main results: `Router.fails_only_unbound_iff`.
-/
import Mathlib.Data.Prod.Lex
import Sidestr.Hitch.Finality

namespace Sidestr

namespace Hitch

/-- A locally kept invoice. -/
structure InvoiceRecord where
  preimage : Preimage
  amount : ℕ
  paid : Bool
  deriving DecidableEq

structure ForwardKey where
  downstream : ChannelId
  hash : Hash256
  deriving DecidableEq

namespace ForwardKey

/-- Keys are ordered by the channel and then the hash. -/
def rank (key : ForwardKey) : ℕ ×ₗ ℕ := toLex (key.downstream.toNat, key.hash.toNat)

theorem rank_injective : Function.Injective rank := by
  rintro ⟨c, h⟩ ⟨c', h'⟩ heq
  obtain ⟨hc, hh⟩ := Prod.mk.inj (toLex.injective heq)
  obtain rfl : c = c' := BitVec.eq_of_toNat_eq hc
  obtain rfl : h = h' := BitVec.eq_of_toNat_eq hh
  rfl

instance : LinearOrder ForwardKey := LinearOrder.lift' rank rank_injective

end ForwardKey

/-- The link between an upstream HTLC and the forward made for it. -/
structure ForwardRecord where
  hash : Hash256
  upstreamChannel : ChannelId
  upstreamHtlcId : ℕ
  downstreamChannel : ChannelId
  «at» : ℕ
  deriving DecidableEq

def ForwardRecord.key (record : ForwardRecord) : ForwardKey :=
  ⟨record.downstreamChannel, record.hash⟩

/-- What the host is to do through a channel machine. -/
inductive RouteAction
  | settle (channel : ChannelId) (htlcId : ℕ) (preimage : Preimage) (forward : Option ForwardKey)
      (invoice : Option Hash256)
  | fail (channel : ChannelId) (htlcId : ℕ) (reason : Text) (forward : Option ForwardKey)
  | forward (channel : ChannelId) (htlc : OfferedHtlc) (record : ForwardRecord)
  | forceClose (channel : ChannelId) (reason : Text)
  deriving DecidableEq

/-- The blocks a forward gives up between the upstream and the downstream expiry. -/
def forwardDelta (upstreamDelay downstreamDelay : ℕ) : ℕ :=
  expiryMargin + upstreamDelay + claimMargin + downstreamDelay

/-- An amount as the signed integer it is cast to. -/
def asI64 (n : ℕ) : ℤ := Int.bmod n (2 ^ 64)

structure Router where
  hub : Bool
  hubFee : ℕ
  forwards : Map ForwardKey ForwardRecord
  inflight : Finset Hash256
  /-- A forward is under its own key. -/
  keyed : ∀ key record, forwards.lookup key = some record → record.key = key

namespace Router

theorem keyed_empty (key : ForwardKey) (record : ForwardRecord)
    (h : (∅ : Map ForwardKey ForwardRecord).lookup key = some record) : record.key = key := by
  rw [Finmap.lookup_empty] at h
  cases h

variable (r : Router)

theorem keyed_insert (record : ForwardRecord) (k : ForwardKey) (v : ForwardRecord)
    (h : (r.forwards.insert record.key record).lookup k = some v) : v.key = k := by
  by_cases hk : k = record.key
  · rw [hk, Finmap.lookup_insert] at h
    rw [hk, ← Option.some.inj h]
  · rw [Finmap.lookup_insert_of_ne _ hk] at h
    exact r.keyed k v h

theorem keyed_erase (key k : ForwardKey) (v : ForwardRecord)
    (h : (r.forwards.erase key).lookup k = some v) : v.key = k := by
  by_cases hk : k = key
  · rw [hk, Finmap.lookup_erase] at h
    cases h
  · rw [Finmap.lookup_erase_ne hk] at h
    exact r.keyed k v h

/-- Record a forward that is about to be offered. -/
def remember (record : ForwardRecord) : Router :=
  { r with
    forwards := r.forwards.insert record.key record
    inflight := insert record.hash r.inflight
    keyed := r.keyed_insert record }

/-- Drop a forward. -/
def forget (key : ForwardKey) : Router :=
  { r with forwards := r.forwards.erase key, keyed := r.keyed_erase key }

end Router

section

variable [Hitch]

def byId (channels : List ChannelMachine) (id : ChannelId) : Option ChannelMachine :=
  channels.find? fun channel => channel.id == id

theorem byId_id {channels : List ChannelMachine} {id : ChannelId} {d : ChannelMachine}
    (h : byId channels id = some d) : d.id = id := by
  unfold byId at h
  have hid := List.find?_some h
  exact eq_of_beq hid

/-- The HTLC of a hash that the other side of `up` offered. -/
def upstreamHtlc (up : ChannelMachine) (hash : Hash256) : Option ProtocolHtlc :=
  up.currentState.htlcs.find? fun htlc => htlc.hash == hash && decide (htlc.from ≠ up.role)

namespace Router

variable (r : Router) (channels : List ChannelMachine) (height : ℕ)
  (invoices : Hash256 → Option InvoiceRecord)

/-! ### An added HTLC -/

/-- The channel an HTLC is forwarded on: one to its target with room where nothing
binds the hash, else the first to its target. -/
def downFor (htlc : OfferedHtlc) (target : Point) (amount : Option ℕ) : Option ChannelMachine :=
  let toTarget := fun c : ChannelMachine => decide (c.status = .open ∧ c.peerKey = target)
  (channels.find? fun c => toTarget c && amount.any (fun n => decide (asI64 n ≤ c.room)) &&
    (c.bound htlc.hash height).isNone) <|> channels.find? toTarget

/-- The settle or the forward of an added HTLC, or the reason it is failed. -/
def judgeAdd (ch : ChannelMachine) (htlc : OfferedHtlc) : Except Text (RouteAction × Router) :=
  match invoices htlc.hash with
  | some invoice =>
    if invoice.paid then .error "invoice already paid".toList
    else if htlc.amount < invoice.amount then .error "amount below the invoice".toList
    else if htlc.expiry < Word.satAdd 32 (Word.satAdd 32 height ch.channel.delay) expiryMargin then
      .error "expiry too close".toList
    else .ok (.settle ch.id htlc.id invoice.preimage none (some htlc.hash), r)
  | none =>
    match htlc.route.filter fun _ => r.hub with
    | none => .error "unknown hash".toList
    | some target =>
      let amount := Word.checkedSub htlc.amount r.hubFee
      let down := downFor channels height htlc target amount
      let expiry := down.bind fun d =>
        Word.checkedSub htlc.expiry (forwardDelta ch.channel.delay d.channel.delay)
      match down, amount, expiry with
      | some down, some amount, some expiry =>
        if down.room < asI64 amount ∨ amount < minHtlc ∨
            expiry ≤ Word.satAdd 32 (Word.satAdd 32 height down.channel.delay) expiryMargin then
          .error "no route".toList
        else if (down.currentState.htlcs.any fun x => x.hash == htlc.hash) ||
            (r.forwards.lookup ⟨down.id, htlc.hash⟩).isSome then .error "duplicate hash".toList
        else
          let record : ForwardRecord := ⟨htlc.hash, ch.id, htlc.id, down.id, height⟩
          .ok (.forward down.id ⟨0, amount, htlc.hash, expiry, none⟩ record, r.remember record)
      | _, _, _ => .error "no route".toList

def onAdd (ch : ChannelMachine) (htlc : OfferedHtlc) : RouteAction × Router :=
  match r.judgeAdd channels height invoices ch htlc with
  | .error reason => (.fail ch.id htlc.id reason none, r)
  | .ok out => out

/-! ### The forward's end -/

/-- The forwarded add is out: signed and pending, or in the state. -/
def isOut (record : ForwardRecord) : Bool :=
  (byId channels record.downstreamChannel).any fun down =>
    decide ((down.pending.bind fun p => p.update.addedHash) = some record.hash) ||
      down.currentState.htlcs.any fun x => x.hash == record.hash

/-- The host's report on a forward. -/
def forwardAttempted (record : ForwardRecord) (ok : Bool) : List RouteAction × Router :=
  let r := { r with inflight := r.inflight.erase record.hash }
  if ok || isOut channels record then ([], r)
  else ([.fail record.upstreamChannel record.upstreamHtlcId "could not forward".toList none],
    r.forget record.key)

def upstreamOf (down : ChannelId) (hash : Hash256) : Option ChannelMachine :=
  match r.forwards.lookup ⟨down, hash⟩ with
  | some record => byId channels record.upstreamChannel
  | none => channels.find? fun c =>
    decide (c.status = .open ∧ c.id ≠ down) && (upstreamHtlc c hash).isSome

/-- What is done to the upstream HTLC of a forward; a forward without one is dropped. -/
def resolveUpstream (down : ChannelId) (hash : Hash256)
    (resolve : ChannelId → ℕ → ForwardKey → RouteAction) : List RouteAction × Router :=
  match r.upstreamOf channels down hash with
  | none => ([], r)
  | some up =>
    match upstreamHtlc up hash with
    | none => ([], r.forget ⟨down, hash⟩)
    | some htlc => ([resolve up.id htlc.id ⟨down, hash⟩], r)

def settleUpstream (down : ChannelId) (hash : Hash256) (preimage : Preimage) :
    List RouteAction × Router :=
  r.resolveUpstream channels down hash fun up id key => .settle up id preimage (some key) none

def failUpstream (down : ChannelId) (hash : Hash256) (reason : Text) :
    List RouteAction × Router :=
  r.resolveUpstream channels down hash fun up id key => .fail up id reason (some key)

/-- The hash of the HTLC that an update resolved, when this peer offered it. -/
def resolvedHash (down : ChannelMachine) (n htlcId : ℕ) : Option Hash256 :=
  ((Word.checkedSub n 1).bind down.states.lookup).bind fun before =>
    (before.htlcs.find? fun x => x.id == htlcId).bind fun htlc =>
      if htlc.from = down.role then some htlc.hash else none

def onResolved (down : ChannelMachine) (n htlcId : ℕ) (preimage : Option Preimage)
    (reason : Option Text) : List RouteAction × Router :=
  match resolvedHash down n htlcId with
  | none => ([], r)
  | some hash =>
    match preimage with
    | some preimage => r.settleUpstream channels down.id hash preimage
    | none => r.failUpstream channels down.id hash (reason.getD "downstream failed".toList)

/-- An update of the other side's became final on `channel`. -/
def onUpdate (channel : ChannelId) (u : FinalisedUpdate) : List RouteAction × Router :=
  match byId channels channel with
  | none => ([], r)
  | some ch =>
    if u.sender = ch.role then ([], r)
    else
      match u.update with
      | .add htlc _ =>
        let out := r.onAdd channels height invoices ch htlc
        ([out.1], out.2)
      | .settle htlcId preimage =>
        if r.hub then r.onResolved channels ch u.n htlcId (some preimage) none else ([], r)
      | .fail htlcId reason =>
        if r.hub then r.onResolved channels ch u.n htlcId none reason else ([], r)
      | .pay _ _ => ([], r)

/-- A forward of this hub's was set aside. -/
def onDropped (channel : ChannelId) (dropped : DroppedUpdate) : List RouteAction × Router :=
  if r.hub then
    match dropped.update.addedHash with
    | none => ([], r)
    | some hash =>
      match byId channels channel with
      | none => ([], r)
      | some down =>
        if (down.bound hash height).isSome then ([], r)
        else r.failUpstream channels channel hash "could not forward".toList
  else ([], r)

/-- A preimage read from the chain settles upstream. -/
def onPreimage (channel : ChannelId) (hash : Hash256) (preimage : Preimage) :
    List RouteAction × Router :=
  if r.hub then r.settleUpstream channels channel hash preimage else ([], r)

/-! ### The tick -/

/-- A forward with nothing downstream. -/
def tickLost (record : ForwardRecord) (down up : ChannelMachine) (upHtlc : ProtocolHtlc) :
    List RouteAction × Router :=
  match down.preimages.lookup record.hash with
  | some preimage => r.settleUpstream channels down.id record.hash preimage
  | none =>
    match down.bound record.hash height with
    | none =>
      if down.pending.isNone && down.awaiting.isNone then
        r.failUpstream channels down.id record.hash "the forward was lost".toList
      else ([], r)
    | some .alt =>
      if (down.status = .open ∨ down.status = .closingAsked) ∧
          upHtlc.expiry - (up.channel.delay + claimMargin + closeDepth) ≤ height then
        ([.forceClose down.id
          "a forward is bound only by a set-aside state and the upstream deadline is near".toList],
          r)
      else ([], r)
    | some _ => ([], r)

/-- A forwarded HTLC past its expiry closes the downstream channel. -/
def tickExpired (down : ChannelMachine) (downHtlc : Option ProtocolHtlc) : List RouteAction :=
  if down.status = .open then
    match downHtlc with
    | none => []
    | some downHtlc =>
      if downHtlc.expiry < height ∧ ¬ down.pending.any fun p => !p.update.isFail then
        [.forceClose down.id "a forwarded htlc is unresolved past its expiry".toList]
      else []
  else []

def tickForward (record : ForwardRecord) : List RouteAction × Router :=
  if record.hash ∈ r.inflight then ([], r)
  else
    match byId channels record.downstreamChannel with
    | none => ([], r)
    | some down =>
      match (byId channels record.upstreamChannel).bind fun up =>
          (upstreamHtlc up record.hash).map fun htlc => (up, htlc) with
      | none => ([], r.forget record.key)
      | some (up, upHtlc) =>
        let downHtlc := down.currentState.htlcs.find? fun x => x.hash == record.hash
        if downHtlc.isNone && decide (record.at < height) then
          r.tickLost channels height record down up upHtlc
        else (tickExpired height down downHtlc, r)

def tickAll : List ForwardRecord → Router → List RouteAction × Router
  | [], r => ([], r)
  | record :: records, r =>
    let out := r.tickForward channels height record
    let later := tickAll records out.2
    (out.1 ++ later.1, later.2)

/-- The forwards, in the order of their keys. -/
def records : List ForwardRecord :=
  (r.forwards.keys.sort (· ≤ ·)).filterMap r.forwards.lookup

def tick : List RouteAction × Router :=
  if r.hub then tickAll channels height r.records r else ([], r)

end Router

/-! ### Failing back -/

/-- The host's calls. -/
inductive RouterCall
  | update (channel : ChannelId) (u : FinalisedUpdate)
  | dropped (channel : ChannelId) (update : DroppedUpdate)
  | attempted (record : ForwardRecord) (ok : Bool)
  | preimage (channel : ChannelId) (hash : Hash256) (preimage : Preimage)
  | tick

/-- An action that fails the upstream HTLC of a forward back: it names the forward, or
the HTLC is the forward's. -/
def RouteAction.FailsFor (record : ForwardRecord) : RouteAction → Prop
  | .fail channel htlcId _ key => key = some record.key ∨
    channel = record.upstreamChannel ∧ htlcId = record.upstreamHtlcId
  | _ => False

/-- The actions fail the upstream HTLC of a forward back. -/
def FailedBack (actions : List RouteAction) (record : ForwardRecord) : Prop :=
  ∃ a ∈ actions, a.FailsFor record

/-- Nothing of a forward has force downstream any more. -/
def Unbound (channels : List ChannelMachine) (height : ℕ) (key : ForwardKey) : Prop :=
  ∀ d, byId channels key.downstream = some d → d.bound key.hash height = none ∧ d.awaiting = none

omit [Hitch] in
theorem not_failedBack_nil {record : ForwardRecord} : ¬ FailedBack [] record := by
  simp [FailedBack]

omit [Hitch] in
theorem failedBack_singleton {a : RouteAction} {record : ForwardRecord} :
    FailedBack [a] record ↔ a.FailsFor record := by
  simp [FailedBack]

omit [Hitch] in
theorem failedBack_append {as bs : List RouteAction} {record : ForwardRecord} :
    FailedBack (as ++ bs) record ↔ FailedBack as record ∨ FailedBack bs record := by
  simp only [FailedBack, List.mem_append, or_and_right, exists_or]

namespace Router

variable (r : Router) (channels : List ChannelMachine) (height : ℕ)
  (invoices : Hash256 → Option InvoiceRecord)

def act : RouterCall → List RouteAction × Router
  | .update channel u => r.onUpdate channels height invoices channel u
  | .dropped channel update => r.onDropped channels height channel update
  | .attempted record ok => r.forwardAttempted channels record ok
  | .preimage channel hash preimage => r.onPreimage channels channel hash preimage
  | .tick => r.tick channels height

/-- The forwards recorded when a call is made, that it reports on among them. -/
def Recorded (call : RouterCall) (record : ForwardRecord) : Prop :=
  (∃ key, r.forwards.lookup key = some record) ∨ ∃ ok, call = .attempted record ok

/-- The call fails the upstream HTLC of a forward back only when nothing of it has force. -/
def FailsOnlyUnbound (call : RouterCall) : Prop :=
  ∀ record, r.Recorded call record →
    FailedBack (r.act channels height invoices call).1 record →
    Unbound channels height record.key

/-- Failing the forward under `key` back fails `record`'s: the upstream HTLC that is
found is its own, or it is that forward. -/
def Carries (key : ForwardKey) (record : ForwardRecord) : Prop :=
  ∃ up htlc, r.upstreamOf channels key.downstream key.hash = some up ∧
    upstreamHtlc up key.hash = some htlc ∧
    (key = record.key ∨ up.id = record.upstreamChannel ∧ htlc.id = record.upstreamHtlcId)

/-- Nothing of a forward is left downstream: the tick fails it back. -/
def Lost (lost : ForwardRecord) : Prop :=
  lost.hash ∉ r.inflight ∧ lost.at < height ∧
    ∃ down, byId channels lost.downstreamChannel = some down ∧
      (down.currentState.htlcs.find? fun x => x.hash == lost.hash) = none ∧
      down.preimages.lookup lost.hash = none ∧ down.bound lost.hash height = none ∧
      down.pending = none ∧ down.awaiting = none

/-- What the calls leave unchecked. An HTLC that is refused, a forward whose HTLC
failed downstream and one whose attempt failed, its add not out, may still be bound;
one that was set aside, while a revocation is awaited. A tick checks the forward it
fails; another forward of the same upstream HTLC may be bound. -/
def Checked : RouterCall → Prop
  | .update channel u => ∀ ch, byId channels channel = some ch → u.sender ≠ ch.role →
    (∀ htlc memo, u.update = .add htlc memo →
      (∃ reason, r.judgeAdd channels height invoices ch htlc = .error reason) →
      ∀ record, r.Recorded (.update channel u) record → ch.id = record.upstreamChannel →
        htlc.id = record.upstreamHtlcId → Unbound channels height record.key) ∧
    ∀ htlcId reason hash, u.update = .fail htlcId reason → resolvedHash ch u.n htlcId = some hash →
      ∀ record, r.Recorded (.update channel u) record → r.Carries channels ⟨ch.id, hash⟩ record →
        Unbound channels height record.key
  | .dropped channel update => ∀ hash down, update.update.addedHash = some hash →
    byId channels channel = some down → down.bound hash height = none →
    ∀ record, r.Recorded (.dropped channel update) record →
      r.Carries channels ⟨channel, hash⟩ record →
      (record.key = ⟨channel, hash⟩ → down.awaiting = none) ∧
        (record.key ≠ ⟨channel, hash⟩ → Unbound channels height record.key)
  | .attempted record ok => ok = false → isOut channels record = false →
    ∀ other, r.Recorded (.attempted record ok) other →
      record.upstreamChannel = other.upstreamChannel →
      record.upstreamHtlcId = other.upstreamHtlcId → Unbound channels height other.key
  | .preimage _ _ _ => True
  | .tick => ∀ lost, r.forwards.lookup lost.key = some lost → r.Lost channels height lost →
    ∀ record, r.Recorded .tick record → r.Carries channels lost.key record →
      record.key ≠ lost.key → Unbound channels height record.key

variable {r channels height invoices} {record : ForwardRecord}

/-! ### What each call fails back -/

theorem settleUpstream_keeps {down : ChannelId} {hash : Hash256} {preimage : Preimage} :
    ¬ FailedBack (r.settleUpstream channels down hash preimage).1 record := by
  unfold settleUpstream resolveUpstream
  split
  · exact not_failedBack_nil
  · split
    · exact not_failedBack_nil
    · exact fun h => failedBack_singleton.mp h

theorem failUpstream_failsBack {down : ChannelId} {hash : Hash256} {reason : Text} :
    FailedBack (r.failUpstream channels down hash reason).1 record ↔
      r.Carries channels ⟨down, hash⟩ record := by
  unfold failUpstream resolveUpstream Carries
  split
  next hup =>
    refine ⟨fun h => absurd h not_failedBack_nil, ?_⟩
    rintro ⟨up, htlc, hup', -⟩
    rw [hup] at hup'
    cases hup'
  next up hup =>
    split
    next hnone =>
      refine ⟨fun h => absurd h not_failedBack_nil, ?_⟩
      rintro ⟨up', htlc, hup', hhtlc, -⟩
      obtain rfl : up = up' := Option.some.inj (hup.symm.trans hup')
      rw [hnone] at hhtlc
      cases hhtlc
    next htlc hhtlc =>
      rw [failedBack_singleton]
      constructor
      · intro h
        exact ⟨up, htlc, hup, hhtlc, h.imp_left Option.some.inj⟩
      · rintro ⟨up', htlc', hup', hhtlc', hcarries⟩
        obtain rfl : up = up' := Option.some.inj (hup.symm.trans hup')
        obtain rfl : htlc = htlc' := Option.some.inj (hhtlc.symm.trans hhtlc')
        exact hcarries.imp_left (congrArg some)

/-- An HTLC that is not refused is not failed. -/
theorem judgeAdd_keeps {ch : ChannelMachine} {htlc : OfferedHtlc} {out : RouteAction × Router}
    (h : r.judgeAdd channels height invoices ch htlc = .ok out) : ¬ out.1.FailsFor record := by
  unfold judgeAdd at h
  split at h
  · split_ifs at h
    cases h
    exact id
  · split at h
    · cases h
    · dsimp only at h
      split at h
      · split_ifs at h
        cases h
        exact id
      · cases h

theorem onAdd_failsBack {ch : ChannelMachine} {htlc : OfferedHtlc} :
    (r.onAdd channels height invoices ch htlc).1.FailsFor record ↔
      (∃ reason, r.judgeAdd channels height invoices ch htlc = .error reason) ∧
        ch.id = record.upstreamChannel ∧ htlc.id = record.upstreamHtlcId := by
  unfold onAdd
  split
  next reason hreason =>
    exact ⟨fun h => ⟨⟨reason, hreason⟩, h.resolve_left nofun⟩, fun h => .inr h.2⟩
  next out hout =>
    refine ⟨fun h => absurd h (judgeAdd_keeps hout), ?_⟩
    rintro ⟨⟨reason, hreason⟩, -⟩
    rw [hout] at hreason
    cases hreason

theorem onUpdate_failsBack (hhub : r.hub = true) {channel : ChannelId} {u : FinalisedUpdate} :
    FailedBack (r.onUpdate channels height invoices channel u).1 record ↔
      ∃ ch, byId channels channel = some ch ∧ u.sender ≠ ch.role ∧
        ((∃ htlc memo, u.update = .add htlc memo ∧
            (∃ reason, r.judgeAdd channels height invoices ch htlc = .error reason) ∧
            ch.id = record.upstreamChannel ∧ htlc.id = record.upstreamHtlcId) ∨
          ∃ htlcId reason hash, u.update = .fail htlcId reason ∧
            resolvedHash ch u.n htlcId = some hash ∧
            r.Carries channels ⟨ch.id, hash⟩ record) := by
  obtain ⟨n, update, sender⟩ := u
  unfold onUpdate
  rcases hch : byId channels channel with _ | ch
  · simp [not_failedBack_nil]
  · by_cases hsender : sender = ch.role
    · simp [hsender, not_failedBack_nil]
    · cases update with
      | pay => simp [hsender, not_failedBack_nil]
      | add htlc memo => simp [hsender, failedBack_singleton, onAdd_failsBack]
      | settle htlcId preimage =>
        simp only [hsender, hhub, onResolved]
        rcases hhash : resolvedHash ch n htlcId with _ | hash
        · simp [not_failedBack_nil]
        · simp [settleUpstream_keeps]
      | fail htlcId reason =>
        simp only [hsender, hhub, onResolved]
        rcases hhash : resolvedHash ch n htlcId with _ | hash
        · simp [hhash, not_failedBack_nil]
        · simp [hhash, hsender, failUpstream_failsBack]

theorem onDropped_failsBack (hhub : r.hub = true) {channel : ChannelId}
    {update : DroppedUpdate} :
    FailedBack (r.onDropped channels height channel update).1 record ↔
      ∃ hash down, update.update.addedHash = some hash ∧ byId channels channel = some down ∧
        down.bound hash height = none ∧ r.Carries channels ⟨channel, hash⟩ record := by
  unfold onDropped
  rw [if_pos hhub]
  rcases update.update.addedHash with _ | hash
  · simp [not_failedBack_nil]
  · rcases byId channels channel with _ | down
    · simp [not_failedBack_nil]
    · rcases hbound : down.bound hash height with _ | bound
      · simp [hbound, failUpstream_failsBack]
      · simp [hbound, not_failedBack_nil]

theorem forwardAttempted_failsBack {attempted : ForwardRecord} {ok : Bool} :
    FailedBack (r.forwardAttempted channels attempted ok).1 record ↔
      ok = false ∧ isOut channels attempted = false ∧
        attempted.upstreamChannel = record.upstreamChannel ∧
        attempted.upstreamHtlcId = record.upstreamHtlcId := by
  unfold forwardAttempted
  cases ok <;> cases isOut channels attempted <;>
    simp [not_failedBack_nil, failedBack_singleton, RouteAction.FailsFor]

theorem onPreimage_keeps {channel : ChannelId} {hash : Hash256} {preimage : Preimage} :
    ¬ FailedBack (r.onPreimage channels channel hash preimage).1 record := by
  unfold onPreimage
  split_ifs
  · exact settleUpstream_keeps
  · exact not_failedBack_nil

/-! ### What a tick fails back -/

theorem lost_congr {r' : Router} (h : r'.inflight = r.inflight) {lost : ForwardRecord} :
    r'.Lost channels height lost ↔ r.Lost channels height lost := by
  unfold Lost
  rw [h]

theorem carries_congr {r' : Router} {key : ForwardKey}
    (h : r'.forwards.lookup key = r.forwards.lookup key) :
    r'.Carries channels key record ↔ r.Carries channels key record := by
  unfold Carries upstreamOf
  rw [h]

theorem resolveUpstream_frame {down : ChannelId} {hash : Hash256}
    {resolve : ChannelId → ℕ → ForwardKey → RouteAction} {key : ForwardKey}
    (hkey : key ≠ ⟨down, hash⟩) :
    (r.resolveUpstream channels down hash resolve).2.inflight = r.inflight ∧
      (r.resolveUpstream channels down hash resolve).2.forwards.lookup key =
        r.forwards.lookup key := by
  unfold resolveUpstream
  split
  · exact ⟨rfl, rfl⟩
  · split
    · exact ⟨rfl, Finmap.lookup_erase_ne hkey⟩
    · exact ⟨rfl, rfl⟩

/-- A forward's turn leaves the others. -/
theorem tickForward_frame {lost : ForwardRecord} {key : ForwardKey} (hkey : key ≠ lost.key) :
    (r.tickForward channels height lost).2.inflight = r.inflight ∧
      (r.tickForward channels height lost).2.forwards.lookup key = r.forwards.lookup key := by
  unfold tickForward
  split_ifs
  · exact ⟨rfl, rfl⟩
  · split
    · exact ⟨rfl, rfl⟩
    next down hdown =>
      have hkey' : key ≠ ⟨down.id, lost.hash⟩ := by
        rw [byId_id hdown]
        exact hkey
      split
      · exact ⟨rfl, Finmap.lookup_erase_ne hkey⟩
      · dsimp only
        split_ifs
        · unfold tickLost
          split
          · exact resolveUpstream_frame hkey'
          · split
            · split_ifs
              · exact resolveUpstream_frame hkey'
              · exact ⟨rfl, rfl⟩
            · split_ifs <;> exact ⟨rfl, rfl⟩
            · exact ⟨rfl, rfl⟩
        · exact ⟨rfl, rfl⟩

theorem tickExpired_keeps {down : ChannelMachine} {htlc : Option ProtocolHtlc} :
    ¬ FailedBack (tickExpired height down htlc) record := by
  unfold tickExpired
  split_ifs
  · cases htlc with
    | none => exact not_failedBack_nil
    | some htlc =>
      dsimp only
      split_ifs
      · exact fun h => failedBack_singleton.mp h
      · exact not_failedBack_nil
  · exact not_failedBack_nil

theorem tickLost_failsBack {lost : ForwardRecord} {down up : ChannelMachine} {htlc : ProtocolHtlc} :
    FailedBack (r.tickLost channels height lost down up htlc).1 record ↔
      (down.preimages.lookup lost.hash = none ∧ down.bound lost.hash height = none ∧
        down.pending = none ∧ down.awaiting = none) ∧
        r.Carries channels ⟨down.id, lost.hash⟩ record := by
  unfold tickLost
  split
  next preimage hpreimage => simp [hpreimage, settleUpstream_keeps]
  next hpreimage =>
    split
    next hbound =>
      split_ifs with hidle
      · rw [Bool.and_eq_true, Option.isNone_iff_eq_none, Option.isNone_iff_eq_none] at hidle
        rw [failUpstream_failsBack]
        exact ⟨fun h => ⟨⟨hpreimage, hbound, hidle⟩, h⟩, fun h => h.2⟩
      · rw [Bool.and_eq_true, Option.isNone_iff_eq_none, Option.isNone_iff_eq_none] at hidle
        exact ⟨fun h => absurd h not_failedBack_nil, fun h => absurd h.1.2.2 hidle⟩
    next hbound =>
      rw [hbound]
      split_ifs <;> simp [not_failedBack_nil, failedBack_singleton, RouteAction.FailsFor]
    next b hne hbound =>
      rw [hbound]
      simp [not_failedBack_nil]

theorem tickForward_failsBack {lost : ForwardRecord}
    (hlost : r.forwards.lookup lost.key = some lost) :
    FailedBack (r.tickForward channels height lost).1 record ↔
      r.Lost channels height lost ∧ r.Carries channels lost.key record := by
  have hup : r.upstreamOf channels lost.downstreamChannel lost.hash =
      byId channels lost.upstreamChannel := by
    unfold upstreamOf
    rw [show (⟨lost.downstreamChannel, lost.hash⟩ : ForwardKey) = lost.key from rfl, hlost]
  unfold tickForward
  split_ifs with hflight
  · exact ⟨fun h => absurd h not_failedBack_nil, fun h => absurd hflight h.1.1⟩
  · split
    next hdown =>
      refine ⟨fun h => absurd h not_failedBack_nil, ?_⟩
      rintro ⟨⟨-, -, down, hdown', -⟩, -⟩
      rw [hdown] at hdown'
      cases hdown'
    next down hdown =>
      split
      next hgone =>
        refine ⟨fun h => absurd h not_failedBack_nil, ?_⟩
        rintro ⟨-, up, htlc, hup', hhtlc, -⟩
        rw [← hup, show r.upstreamOf channels lost.downstreamChannel lost.hash = some up from hup',
          Option.bind_some, show upstreamHtlc up lost.hash = some htlc from hhtlc] at hgone
        cases hgone
      · dsimp only
        split_ifs with hidle
        · rw [Bool.and_eq_true, Option.isNone_iff_eq_none, decide_eq_true_iff] at hidle
          rw [tickLost_failsBack, byId_id hdown]
          constructor
          · rintro ⟨hfree, hcarries⟩
            exact ⟨⟨hflight, hidle.2, down, hdown, hidle.1, hfree⟩, hcarries⟩
          · rintro ⟨⟨-, -, down', hdown', -, hfree⟩, hcarries⟩
            obtain rfl : down = down' := Option.some.inj (hdown.symm.trans hdown')
            exact ⟨hfree, hcarries⟩
        · refine ⟨fun h => absurd h tickExpired_keeps, ?_⟩
          rintro ⟨⟨-, hlate, down', hdown', hnone, -⟩, -⟩
          obtain rfl : down = down' := Option.some.inj (hdown.symm.trans hdown')
          rw [hnone, decide_eq_true hlate] at hidle
          exact absurd rfl hidle

/-- Each forward has its turn in the router it was recorded in, as far as it can tell. -/
theorem tickAll_failsBack : ∀ {records : List ForwardRecord} {r : Router},
    (records.map ForwardRecord.key).Nodup →
    (∀ lost ∈ records, r.forwards.lookup lost.key = some lost) →
    (FailedBack (tickAll channels height records r).1 record ↔
      ∃ lost ∈ records, r.Lost channels height lost ∧ r.Carries channels lost.key record)
  | [], _, _, _ => by simp [tickAll, not_failedBack_nil]
  | first :: records, r, hnodup, hrecorded => by
    rw [List.map_cons, List.nodup_cons] at hnodup
    have hframe : ∀ lost ∈ records,
        (r.tickForward channels height first).2.inflight = r.inflight ∧
          (r.tickForward channels height first).2.forwards.lookup lost.key =
            r.forwards.lookup lost.key := by
      intro lost hlost
      refine tickForward_frame fun hkey => hnodup.1 ?_
      rw [← hkey]
      exact List.mem_map_of_mem hlost
    have hrest : ∀ lost ∈ records,
        (r.tickForward channels height first).2.forwards.lookup lost.key = some lost := by
      intro lost hlost
      rw [(hframe lost hlost).2]
      exact hrecorded lost (List.mem_cons_of_mem _ hlost)
    unfold tickAll
    rw [failedBack_append, tickForward_failsBack (hrecorded first List.mem_cons_self),
      tickAll_failsBack hnodup.2 hrest]
    simp only [List.mem_cons, exists_eq_or_imp]
    refine or_congr_right (exists_congr fun lost => and_congr_right fun hlost => ?_)
    rw [lost_congr (hframe lost hlost).1, carries_congr (hframe lost hlost).2]

omit [Hitch] in
theorem mem_records {lost : ForwardRecord} :
    lost ∈ r.records ↔ r.forwards.lookup lost.key = some lost := by
  unfold records
  rw [List.mem_filterMap]
  constructor
  · rintro ⟨key, -, h⟩
    rw [r.keyed key lost h]
    exact h
  · intro h
    refine ⟨lost.key, ?_, h⟩
    rw [Finset.mem_sort, Finmap.mem_keys, ← Finmap.lookup_isSome, h]
    rfl

omit [Hitch] in
theorem records_nodup : (r.records.map ForwardRecord.key).Nodup := by
  have hnodup : r.records.Nodup := by
    refine (Finset.sort_nodup _ _).filterMap fun k k' record h h' => ?_
    rw [← r.keyed k record h, ← r.keyed k' record h']
  refine hnodup.map_on fun a ha b hb hkey => ?_
  rw [mem_records] at ha hb
  rw [hkey, hb] at ha
  exact (Option.some.inj ha).symm

theorem tick_failsBack (hhub : r.hub = true) :
    FailedBack (r.tick channels height).1 record ↔
      ∃ lost, r.forwards.lookup lost.key = some lost ∧ r.Lost channels height lost ∧
        r.Carries channels lost.key record := by
  unfold tick
  rw [if_pos hhub, tickAll_failsBack records_nodup fun lost h => mem_records.mp h]
  simp only [mem_records]

theorem Lost.unbound {lost : ForwardRecord} (h : r.Lost channels height lost) :
    Unbound channels height lost.key := by
  obtain ⟨-, -, down, hdown, -, -, hbound, -, hawaiting⟩ := h
  intro d hd
  obtain rfl : down = d := Option.some.inj (hdown.symm.trans hd)
  exact ⟨hbound, hawaiting⟩

end Router

end

attribute [local instance] sampleHitch

/-- A forward on the sample channel. -/
def lostRecord : ForwardRecord :=
  ⟨55, 77, 3, channelIdOf sampleChannel.fundingOutpoint.txid, 101⟩

/-- A hub that has just offered it. -/
def lostRouter : Router :=
  Router.remember ⟨true, 10, ∅, ∅, Router.keyed_empty⟩ lostRecord

/-- The forward's HTLC, offered. -/
def offeredCalls : List Call :=
  [.confirmFunding 100, .addHtlc 5000 55 200 none none (sampleSecret 33 next_ne_zero)
    (sampleContext 101)]

/-- Side B refuses it, and it is set aside. -/
def lostCalls : List Call :=
  offeredCalls ++ (lastSent (sampleRunOf .a offeredCalls)).flatMap refusalOf

set_option maxRecDepth 100000 in
theorem offeredCalls_out : (sampleRunOf .a offeredCalls).map (fun r =>
    Router.isOut [r.1] lostRecord) = some true := by
  decide +kernel

set_option maxRecDepth 100000 in
theorem lostCalls_bound : (sampleRunOf .a lostCalls).map (fun r =>
    (Router.isOut [r.1] lostRecord, (byId [r.1] lostRecord.downstreamChannel).map fun d =>
      d.bound lostRecord.hash 102)) = some (false, some (some .alt)) := by
  decide +kernel

end Hitch

end Sidestr
