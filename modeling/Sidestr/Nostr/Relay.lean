/-
# What a follower lets through

A client follows one kind of event on one chain over relays it does not trust
(`relay.rs`). A delivered event is dropped when its id was seen, then when its
chain tag is another's; its id is remembered, and only then is its signature
checked. So an id is used up by any event that carries it: a forgery that comes
first silences the genuine event, and a genuine event whose id is spelled in
another letter case is let through again. Each genuine event is returned exactly
once when neither happens (`accepted_once_iff`).

Key definitions: `Follower.accept`, `Genuine`, `AcceptedOnce`, `Undisturbed`.
Key theorems: `Remembering.accept`, `run_remembering`, `accepted_once_iff`.
-/
import Sidestr.Round.Sample
import Mathlib.Data.Finset.Card

namespace Sidestr

namespace Nostr

open Round

/-! ### The follower -/

/-- One kind, one chain, and the ids seen: as a set, and oldest first. -/
structure Follower where
  kind : ℕ
  chainId : Bytes
  seen : List Bytes
  order : List Bytes
  cap : ℕ

def Follower.withCapacity (kind : ℕ) (chainId : Bytes) (cap : ℕ) : Follower :=
  ⟨kind, chainId, [], [], max cap 1⟩

def Follower.new (kind : ℕ) (chainId : Bytes) : Follower :=
  Follower.withCapacity kind chainId 10000

/-- The id is seen from now on; past the capacity the oldest is forgotten. -/
def Follower.remember (f : Follower) (id : Bytes) : Follower :=
  if id ∈ f.seen then f
  else
    let seen := id :: f.seen
    match f.order ++ [id] with
    | old :: rest =>
      if f.cap < (old :: rest).length then
        { f with seen := seen.filter (fun x => x ≠ old), order := rest }
      else { f with seen, order := old :: rest }
    | [] => { f with seen }

/-- The checks, in upstream's order: kind, seen, chain tag, signature. -/
def Follower.accept [Bitcoin] [EventCodec] (f : Follower) (ev : Event) : Follower × Option Event :=
  if ev.kind ≠ f.kind ∨ ev.id ∈ f.seen then (f, none)
  else if !isForChain ev.tags f.chainId then (f, none)
  else (f.remember ev.id, if ev.verify then some ev else none)

/-- The follower after so many deliveries. -/
def Follower.run [Bitcoin] [EventCodec] (f : Follower) (evs : List Event) : Follower :=
  evs.foldl (fun f ev => (f.accept ev).1) f

/-! ### What is delivered -/

/-- The event passes the kind and chain checks. -/
def Passes (kind : ℕ) (chainId : Bytes) (ev : Event) : Prop :=
  ev.kind = kind ∧ isForChain ev.tags chainId = true

instance (kind : ℕ) (chainId : Bytes) (ev : Event) : Decidable (Passes kind chainId ev) :=
  inferInstanceAs (Decidable (_ ∧ _))

/-- The ids of the events that pass them. -/
def passingIds (kind : ℕ) (chainId : Bytes) (evs : List Event) : Finset Bytes :=
  ((evs.filter (Passes kind chainId)).map Event.id).toFinset

theorem mem_passingIds {kind : ℕ} {chainId : Bytes} {evs : List Event} {id : Bytes} :
    id ∈ passingIds kind chainId evs ↔ ∃ e ∈ evs, Passes kind chainId e ∧ e.id = id := by
  unfold passingIds
  rw [List.mem_toFinset, List.mem_map]
  constructor
  · rintro ⟨e, he, rfl⟩
    rw [List.mem_filter, decide_eq_true_eq] at he
    exact ⟨e, he.1, he.2, rfl⟩
  · rintro ⟨e, he, hp, rfl⟩
    exact ⟨e, List.mem_filter.mpr ⟨he, decide_eq_true hp⟩, rfl⟩

theorem passingIds_concat_of_passes {kind : ℕ} {chainId : Bytes} {evs : List Event} {ev : Event}
    (h : Passes kind chainId ev) :
    passingIds kind chainId (evs ++ [ev]) = insert ev.id (passingIds kind chainId evs) := by
  ext id
  rw [Finset.mem_insert, mem_passingIds, mem_passingIds]
  constructor
  · rintro ⟨e, he, hp, rfl⟩
    rcases List.mem_append.mp he with he | he
    · exact .inr ⟨e, he, hp, rfl⟩
    · rw [List.mem_singleton.mp he]
      exact .inl rfl
  · rintro (rfl | ⟨e, he, hp, rfl⟩)
    · exact ⟨ev, List.mem_append_right _ (List.mem_singleton_self _), h, rfl⟩
    · exact ⟨e, List.mem_append_left _ he, hp, rfl⟩

theorem passingIds_concat_of_not {kind : ℕ} {chainId : Bytes} {evs : List Event} {ev : Event}
    (h : ¬ Passes kind chainId ev) :
    passingIds kind chainId (evs ++ [ev]) = passingIds kind chainId evs := by
  unfold passingIds
  rw [List.filter_append, List.filter_singleton, decide_eq_false h, cond_false, List.append_nil]

/-! ### What is remembered -/

/-- The follower has seen exactly these ids. -/
structure Remembering (f : Follower) (ids : Finset Bytes) : Prop where
  nodup : f.order.Nodup
  order : f.order.toFinset = ids
  seen : ∀ x, x ∈ f.seen ↔ x ∈ ids

/-- With room for one more id nothing is forgotten. -/
theorem Remembering.remember {f : Follower} {ids : Finset Bytes} {id : Bytes}
    (h : Remembering f ids) (hroom : (insert id ids).card ≤ f.cap) :
    Remembering (f.remember id) (insert id ids) := by
  unfold Follower.remember
  split_ifs with hseen
  · have hmem := (h.seen id).mp hseen
    rw [Finset.insert_eq_of_mem hmem]
    exact h
  · have hnew : id ∉ ids := fun hmem => hseen ((h.seen id).mpr hmem)
    have hnotin : id ∉ f.order := by
      rw [← List.mem_toFinset, h.order]
      exact hnew
    have hnodup : (f.order ++ [id]).Nodup := by
      rw [List.nodup_append]
      refine ⟨h.nodup, List.nodup_singleton _, ?_⟩
      intro a ha b hb
      rw [List.mem_singleton.mp hb]
      rintro rfl
      exact hnotin ha
    have hset : (f.order ++ [id]).toFinset = insert id ids := by
      rw [List.toFinset_append, h.order, Finset.union_comm]
      rfl
    have hlen : (f.order ++ [id]).length ≤ f.cap := by
      rw [← List.toFinset_card_of_nodup hnodup, hset]
      exact hroom
    have hseen' : ∀ x, x ∈ id :: f.seen ↔ x ∈ insert id ids := by
      intro x
      rw [List.mem_cons, Finset.mem_insert, h.seen]
    dsimp only
    split
    · rename_i old rest heq
      rw [heq] at hnodup hset hlen
      rw [if_neg (Nat.not_lt.mpr hlen)]
      exact ⟨hnodup, hset, hseen'⟩
    · rename_i heq
      exact absurd heq (by simp)

theorem Follower.remember_kept (f : Follower) (id : Bytes) :
    (f.remember id).kind = f.kind ∧ (f.remember id).chainId = f.chainId ∧
      (f.remember id).cap = f.cap := by
  unfold Follower.remember
  split_ifs with hseen
  · exact ⟨rfl, rfl, rfl⟩
  · dsimp only
    split
    · split_ifs
      · exact ⟨rfl, rfl, rfl⟩
      · exact ⟨rfl, rfl, rfl⟩
    · exact ⟨rfl, rfl, rfl⟩

section

variable [Bitcoin] [EventCodec]

/-- An event of the kind, tagged for the chain, that verifies. -/
def Genuine (kind : ℕ) (chainId : Bytes) (ev : Event) : Prop :=
  Passes kind chainId ev ∧ ev.verify = true

instance (kind : ℕ) (chainId : Bytes) (ev : Event) : Decidable (Genuine kind chainId ev) :=
  inferInstanceAs (Decidable (_ ∧ _))

/-- What one delivery does to a follower that has seen these ids. -/
theorem Remembering.accept {f : Follower} {ids : Finset Bytes} (h : Remembering f ids)
    (ev : Event) :
    (f.accept ev).2 = (if Genuine f.kind f.chainId ev ∧ ev.id ∉ ids then some ev else none) ∧
      ((Passes f.kind f.chainId ev ∧ (f.accept ev).1 = f.remember ev.id) ∨
        (Passes f.kind f.chainId ev ∧ ev.id ∈ ids ∧ (f.accept ev).1 = f) ∨
        (¬ Passes f.kind f.chainId ev ∧ (f.accept ev).1 = f)) := by
  unfold Follower.accept
  split_ifs with h1 h2 h3 h4 h5
  · exfalso
    rcases h1 with h1 | h1
    · exact h1 h2.1.1.1
    · exact h2.2 ((h.seen _).mp h1)
  · refine ⟨rfl, ?_⟩
    by_cases hp : Passes f.kind f.chainId ev
    · rcases h1 with h1 | h1
      · exact absurd hp.1 h1
      · exact .inr (.inl ⟨hp, (h.seen _).mp h1, rfl⟩)
    · exact .inr (.inr ⟨hp, rfl⟩)
  · rw [h4.1.1.2] at h3
    exact absurd h3 (by decide)
  · refine ⟨rfl, .inr (.inr ⟨?_, rfl⟩)⟩
    rintro ⟨-, hc⟩
    rw [hc] at h3
    exact absurd h3 (by decide)
  all_goals
    rw [not_or, not_not] at h1
    have hc : isForChain ev.tags f.chainId = true := by simpa using h3
    refine ⟨?_, .inl ⟨⟨h1.1, hc⟩, rfl⟩⟩
    have hnew : ev.id ∉ ids := fun hm => h1.2 ((h.seen _).mpr hm)
    by_cases hv : ev.verify = true
    · simp_all [Genuine, Passes]
    · simp_all [Genuine, Passes]

/-- **Nothing is forgotten while there is room.** -/
theorem run_remembering {kind : ℕ} {chainId : Bytes} {cap : ℕ} : ∀ (evs : List Event),
    (passingIds kind chainId evs).card ≤ max cap 1 →
    Remembering ((Follower.withCapacity kind chainId cap).run evs) (passingIds kind chainId evs) ∧
      ((Follower.withCapacity kind chainId cap).run evs).kind = kind ∧
      ((Follower.withCapacity kind chainId cap).run evs).chainId = chainId ∧
      ((Follower.withCapacity kind chainId cap).run evs).cap = max cap 1 := by
  intro evs
  induction evs using List.reverseRecOn with
  | nil =>
    intro _
    exact ⟨⟨List.nodup_nil, rfl, fun x => by simp [Follower.run, Follower.withCapacity, passingIds]⟩,
      rfl, rfl, rfl⟩
  | append_singleton evs ev ih =>
    intro hroom
    have hle : (passingIds kind chainId evs).card ≤ (passingIds kind chainId (evs ++ [ev])).card := by
      apply Finset.card_le_card
      intro id hid
      obtain ⟨e, he, hp⟩ := mem_passingIds.mp hid
      exact mem_passingIds.mpr ⟨e, List.mem_append_left _ he, hp⟩
    obtain ⟨hrem, hkind, hchain, hcap⟩ := ih (by omega)
    have hrun : (Follower.withCapacity kind chainId cap).run (evs ++ [ev]) =
        (((Follower.withCapacity kind chainId cap).run evs).accept ev).1 := by
      unfold Follower.run
      rw [List.foldl_append]
      rfl
    rw [hrun]
    obtain ⟨-, hstep⟩ := hrem.accept ev
    rw [hkind, hchain] at hstep
    rcases hstep with ⟨hp, heq⟩ | ⟨hp, hmem, heq⟩ | ⟨hp, heq⟩
    · rw [heq]
      rw [passingIds_concat_of_passes hp] at hroom ⊢
      obtain ⟨h1, h2, h3⟩ := Follower.remember_kept
        ((Follower.withCapacity kind chainId cap).run evs) ev.id
      exact ⟨hrem.remember (by rw [hcap]; exact hroom), h1.trans hkind, h2.trans hchain,
        h3.trans hcap⟩
    · rw [heq, passingIds_concat_of_passes hp, Finset.insert_eq_of_mem hmem]
      exact ⟨hrem, hkind, hchain, hcap⟩
    · rw [heq, passingIds_concat_of_not hp]
      exact ⟨hrem, hkind, hchain, hcap⟩

/-! ### Once, at the first delivery -/

/-- Two deliveries of one event: an id is read in either letter case. -/
def SameEvent (a b : Event) : Prop := toLower a.id = toLower b.id

instance (a b : Event) : Decidable (SameEvent a b) := inferInstanceAs (Decidable (_ = _))

/-- A fresh follower returns each genuine event exactly when it is delivered for
the first time. -/
def AcceptedOnce (kind : ℕ) (chainId : Bytes) (cap : ℕ) (evs : List Event) : Prop :=
  ∀ pre ev post, evs = pre ++ ev :: post → Genuine kind chainId ev →
    ((((Follower.withCapacity kind chainId cap).run pre).accept ev).2 = some ev ↔
      ∀ e ∈ pre, Genuine kind chainId e → ¬ SameEvent e ev)

/-- No other event uses up a genuine one's id before it comes, and when it comes
again its id is spelled as it was. -/
structure Undisturbed (kind : ℕ) (chainId : Bytes) (evs : List Event) : Prop where
  unforged : ∀ pre ev post, evs = pre ++ ev :: post → Genuine kind chainId ev →
    (∀ e ∈ pre, Genuine kind chainId e → ¬ SameEvent e ev) →
    ∀ e ∈ pre, Passes kind chainId e → e.id ≠ ev.id
  oneSpelling : ∀ pre ev post, evs = pre ++ ev :: post → Genuine kind chainId ev →
    (∃ e ∈ pre, Genuine kind chainId e ∧ SameEvent e ev) →
    ∃ e ∈ pre, Passes kind chainId e ∧ e.id = ev.id

/-- What a follower with room returns of a genuine event. -/
theorem accept_genuine {kind : ℕ} {chainId : Bytes} {cap : ℕ} {evs pre post : List Event}
    {ev : Event} (hroom : (passingIds kind chainId evs).card < cap) (hsplit : evs = pre ++ ev :: post)
    (hg : Genuine kind chainId ev) :
    (((Follower.withCapacity kind chainId cap).run pre).accept ev).2 = some ev ↔
      ∀ e ∈ pre, Passes kind chainId e → e.id ≠ ev.id := by
  have hle : (passingIds kind chainId pre).card ≤ (passingIds kind chainId evs).card := by
    apply Finset.card_le_card
    intro id hid
    obtain ⟨e, he, hp⟩ := mem_passingIds.mp hid
    exact mem_passingIds.mpr ⟨e, hsplit ▸ List.mem_append_left _ he, hp⟩
  obtain ⟨hrem, hkind, hchain, -⟩ := @run_remembering _ _ kind chainId cap pre (by omega)
  rw [(hrem.accept ev).1, hkind, hchain]
  constructor
  · intro h e he hp hid
    split_ifs at h with hnew
    exact hnew.2 (mem_passingIds.mpr ⟨e, he, hp, hid⟩)
  · intro h
    rw [if_pos]
    refine ⟨hg, fun hmem => ?_⟩
    obtain ⟨e, he, hp, hid⟩ := mem_passingIds.mp hmem
    exact h e he hp hid

/-- **Each genuine event is returned once, at its first delivery, exactly when
nothing else uses its id up first and its id is spelled one way.** -/
theorem accepted_once_iff (kind : ℕ) (chainId : Bytes) (cap : ℕ) (evs : List Event)
    (hroom : (passingIds kind chainId evs).card < cap) :
    AcceptedOnce kind chainId cap evs ↔ Undisturbed kind chainId evs := by
  constructor
  · intro h
    constructor
    · intro pre ev post hsplit hg hfirst
      exact (accept_genuine hroom hsplit hg).mp ((h pre ev post hsplit hg).mpr hfirst)
    · rintro pre ev post hsplit hg ⟨e, he, hge, hsame⟩
      by_contra hnone
      have hret := (accept_genuine hroom hsplit hg).mpr fun e he hp hid => hnone ⟨e, he, hp, hid⟩
      exact (h pre ev post hsplit hg).mp hret e he hge hsame
  · intro h pre ev post hsplit hg
    rw [accept_genuine hroom hsplit hg]
    constructor
    · intro hunused e he hge hsame
      obtain ⟨e', he', hp', hid'⟩ := h.oneSpelling pre ev post hsplit hg ⟨e, he, hge, hsame⟩
      exact hunused e' he' hp' hid'
    · exact h.unforged pre ev post hsplit hg

end

/-! ### A sample -/

section

attribute [local instance] sampleBitcoin sampleEventCodec

def sampleChainId : Bytes := ascii ['s', 'i', 'd', 'e', 's', 't', 'r', ':', 't']

/-- A transaction event, signed. -/
def sampleEvent : Event :=
  ((keySigner.signEvent 1 ⟨[], 1, 23500, [[tagChain, sampleChainId]], [0x30]⟩).2).getD
    ⟨⟨[], 0, 0, [], []⟩, [], []⟩

/-- Its id under another content. -/
def sampleForged : Event := { sampleEvent with content := [0x31] }

/-- A fresh follower that has room returns an event once, whatever forgeries follow it. -/
theorem accepted_once_sample :
    (passingIds 23500 sampleChainId [sampleEvent, sampleForged]).card < 2 ∧
      AcceptedOnce 23500 sampleChainId 2 [sampleEvent, sampleForged] := by
  have hroom : (passingIds 23500 sampleChainId [sampleEvent, sampleForged]).card < 2 := by
    decide +kernel
  have hforged : ¬ Genuine 23500 sampleChainId sampleForged := by decide +kernel
  refine ⟨hroom, (accepted_once_iff _ _ _ _ hroom).mpr ⟨?_, ?_⟩⟩
  · intro pre ev post hsplit hg _ e he
    rcases pre with _ | ⟨a, _ | ⟨b, pre⟩⟩
    · cases he
    · simp only [List.cons_append, List.nil_append, List.cons.injEq] at hsplit
      obtain ⟨-, rfl, -⟩ := hsplit
      exact absurd hg hforged
    · simp at hsplit
  · rintro pre ev post hsplit hg ⟨e, he, -⟩
    rcases pre with _ | ⟨a, _ | ⟨b, pre⟩⟩
    · cases he
    · simp only [List.cons_append, List.nil_append, List.cons.injEq] at hsplit
      obtain ⟨-, rfl, -⟩ := hsplit
      exact absurd hg hforged
    · simp at hsplit

/-- A forgery that comes first silences the event. -/
theorem forgery_silences : ¬ ∀ (kind : ℕ) (chainId : Bytes) (cap : ℕ) (evs : List Event),
    (passingIds kind chainId evs).card < cap → AcceptedOnce kind chainId cap evs := by
  intro h
  have hroom : (passingIds 23500 sampleChainId [sampleForged, sampleEvent]).card < 2 := by
    decide +kernel
  have hg : Genuine 23500 sampleChainId sampleEvent := by decide +kernel
  have hforged : ¬ Genuine 23500 sampleChainId sampleForged := by decide +kernel
  have hnone : (((Follower.withCapacity 23500 sampleChainId 2).run [sampleForged]).accept
      sampleEvent).2 = none := by decide +kernel
  have hret := (h _ _ _ _ hroom [sampleForged] sampleEvent [] rfl hg).mpr fun e he hge =>
    absurd (List.mem_singleton.mp he ▸ hge) hforged
  rw [hnone] at hret
  cases hret

end

end Nostr

end Sidestr
