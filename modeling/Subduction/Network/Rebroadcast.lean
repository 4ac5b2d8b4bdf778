/-
**Nodes that send on to each other.**

Any number of nodes, each with any subscribers, pass pushed items on. Messages arrive in any order, and
a node works on many of them at once. What stops an item on its way round a cycle is that a node that
has it does not find it new again; but newness is judged against the resident tree, and reading the
heads for the very fan-out prunes what a fragment covers from this tree.

Main result: `fans_out_once`.
-/

import Mathlib
import Subduction.Node.FanOut

set_option linter.unusedSectionVars false

namespace Subduction

open Party List

section Networks

variable [Blake3] [Bijou64Codec] [IterOrder CommitId] [IterOrder (Digest LooseCommit)]
  [IterOrder (Digest Fragment)]

/-! ### What a handling is about to send on -/

namespace Handling

def pending : Handling → Option (SedimentreeId × ItemKey)
  | sent _ => none
  | save id verified wasNew => if wasNew then some (id, verified.item.key) else none
  | add id verified wasNew => if wasNew then some (id, verified.item.key) else none
  | fanOut id verified => some (id, verified.item.key)

/-- The message, as long as it is on its way. -/
def message? : Handling → Option SyncMessage
  | sent message => some message
  | _ => none

/-- The item that is judged and not saved. -/
def saving : Handling → Option (SedimentreeId × ItemKey)
  | save id verified _ => some (id, verified.item.key)
  | _ => none

/-- The item that is sent on in this step. -/
def fansOut : Handling → Option (SedimentreeId × ItemKey)
  | fanOut id verified => some (id, verified.item.key)
  | _ => none

/-- The item that the message brings or brought. -/
def carries : Handling → Option (SedimentreeId × Item)
  | sent message => message.carries
  | save id verified _ => some (id, verified.item)
  | add id verified _ => some (id, verified.item)
  | fanOut id verified => some (id, verified.item)

end Handling

abbrev Entry := PeerId × SedimentreeId × ItemKey

/-! ### The network -/

/-- **A message between two peers**, on its way or in work. -/
structure Transit where
  sender : PeerId
  receiver : PeerId
  handling : Handling

def Transit.pending (transit : Transit) : Option Entry :=
  transit.handling.pending.map (transit.receiver, ·)

def Transit.saving (transit : Transit) : Option Entry :=
  transit.handling.saving.map (transit.receiver, ·)

def Transit.fansOut (transit : Transit) : Option Entry :=
  transit.handling.fansOut.map (transit.receiver, ·)

/-- **Nodes and the messages between them**, with a record of what was sent on and of the messages. -/
structure Network where
  parties : FinMap PeerId Party
  transits : List Transit
  fanOuts : List Entry
  sent : List Transit

def Network.start (parties : FinMap PeerId Party) : Network := ⟨parties, [], [], []⟩

/-- A message comes from outside, or a message takes its next step: it arrives, or its handler goes
on. The counters of peers without one start from `seed`. -/
inductive NetworkEvent where
  | inject (sender receiver : PeerId) (message : SyncMessage)
  | advance (index : Nat) (seed : PeerId → UInt64)

namespace Network

/-- The items that are about to be sent on. -/
def pending (network : Network) : List Entry := network.transits.filterMap Transit.pending

variable [Ed25519] [IterOrder PeerId]

def depart (sender : PeerId) (fanOut : Option FanOut) : List Transit :=
  (fanOut.toList.flatMap FanOut.messages).map fun message => ⟨sender, message.1, .sent message.2⟩

/-- A message takes its next step at its node. -/
def settle (network : Network) (before : List Transit) (transit : Transit) (after : List Transit)
    (party : Party) (seed : PeerId → UInt64) : Network :=
  let handled := party.advance seed transit.sender transit.handling
  let departed := depart transit.receiver handled.fanOut
  { parties := network.parties.insert transit.receiver handled.party
    transits := before ++ handled.next.toList.map (fun handling => { transit with handling }) ++ after
      ++ departed
    fanOuts := network.fanOuts ++ transit.fansOut.toList
    sent := network.sent ++ departed }

/-- **One step.** A message to a peer outside is gone when it arrives. -/
def step (network : Network) : NetworkEvent → Network
  | .inject sender receiver message =>
    { network with transits := network.transits ++ [⟨sender, receiver, .sent message⟩] }
  | .advance index seed =>
    match network.transits[index]? with
    | none => network
    | some transit =>
      match network.parties.get? transit.receiver with
      | none => { network with transits := network.transits.take index
          ++ network.transits.drop (index + 1) }
      | some party => network.settle (network.transits.take index) transit
          (network.transits.drop (index + 1)) party seed

theorem step_cases (network : Network) (event : NetworkEvent) :
    (∃ sender receiver message, event = .inject sender receiver message ∧ network.step event =
      { network with transits := network.transits ++ [⟨sender, receiver, .sent message⟩] }) ∨
    network.step event = network ∨
    (∃ before transit after, network.transits = before ++ transit :: after ∧
      network.parties.get? transit.receiver = none ∧
      network.step event = { network with transits := before ++ after }) ∨
    ∃ index seed before transit after party, event = .advance index seed ∧
      network.transits[index]? = some transit ∧ network.transits = before ++ transit :: after ∧
      network.parties.get? transit.receiver = some party ∧
      network.step event = network.settle before transit after party seed := by
  cases event with
  | inject sender receiver message => exact Or.inl ⟨sender, receiver, message, rfl, rfl⟩
  | advance index seed =>
    cases found : network.transits[index]? with
    | none => exact Or.inr (Or.inl (by simp only [step, found]))
    | some transit =>
      have bound := (List.getElem?_eq_some_iff.mp found).1
      have split : network.transits = network.transits.take index ++ transit ::
          network.transits.drop (index + 1) := by
        rw [← (List.getElem?_eq_some_iff.mp found).2, ← drop_eq_getElem_cons bound,
          take_append_drop]
      cases member : network.parties.get? transit.receiver with
      | none =>
        exact Or.inr (Or.inr (Or.inl ⟨_, transit, _, split, member, by
          simp only [step, found, member]⟩))
      | some party =>
        exact Or.inr (Or.inr (Or.inr ⟨index, seed, _, transit, _, party, rfl, found, split, member, by
          simp only [step, found, member]⟩))

/-- **No node judges what it has stored and forgotten**, or what another handler is about to save, and
no save meets another payload with its digest. -/
def Remembers (network : Network) : NetworkEvent → Prop
  | .inject _ _ _ => True
  | .advance index _ => ∀ transit ∈ network.transits[index]?,
      ∀ party ∈ network.parties.get? transit.receiver,
        party.Remembers transit.sender transit.handling ∧
        ∀ message ∈ transit.handling.message?, ∀ judged ∈ party.accepted transit.sender message,
          ∀ other ∈ network.transits,
            other.saving ≠ some (transit.receiver, judged.1, judged.2.item.key)

instance (network : Network) : ∀ event, Decidable (network.Remembers event)
  | .inject _ _ _ => isTrue trivial
  | .advance index _ => inferInstanceAs (Decidable (∀ transit ∈ network.transits[index]?,
      ∀ party ∈ network.parties.get? transit.receiver,
        party.Remembers transit.sender transit.handling ∧
        ∀ message ∈ transit.handling.message?, ∀ judged ∈ party.accepted transit.sender message,
          ∀ other ∈ network.transits,
            other.saving ≠ some (transit.receiver, judged.1, judged.2.item.key)))

/-! ### At most once -/

def Stored (network : Network) (entry : Entry) : Prop :=
  ∃ party, network.parties.get? entry.1 = some party ∧
    ∃ item, party.node.storage.Has entry.2.1 item ∧ item.key = entry.2.2

/-- **The invariant**: what was and what is going to be sent on are different items, and each of them is
stored or about to be. -/
structure Once (network : Network) : Prop where
  nodup : (network.fanOuts ++ network.pending).Nodup
  known : ∀ entry ∈ network.fanOuts ++ network.pending, network.Stored entry ∨
    ∃ transit ∈ network.transits, transit.saving = some entry
  inside : ∀ transit ∈ network.transits, transit.handling.message? = none →
    transit.receiver ∈ network.parties.keys

theorem pending_depart (sender : PeerId) (fanOut : Option FanOut) :
    (depart sender fanOut).filterMap Transit.pending = [] := by
  unfold depart
  rw [filterMap_map, filterMap_eq_nil_iff]
  exact fun message _ => rfl

section Settle

variable {network : Network} {before after : List Transit} {transit : Transit} {party : Party}
  {seed : PeerId → UInt64}

/-- What a handler begins to send on in this step. -/
def gained (party : Party) (seed : PeerId → UInt64) (transit : Transit) : List Entry :=
  match transit.handling with
  | .sent _ => ((party.advance seed transit.sender transit.handling).next.bind Handling.pending).toList.map
      (transit.receiver, ·)
  | _ => []

theorem ledger (party : Party) (seed : PeerId → UInt64) (transit : Transit) :
    transit.fansOut.toList ++ ((party.advance seed transit.sender transit.handling).next.toList.map
        fun handling => { transit with handling }).filterMap Transit.pending =
      transit.pending.toList ++ gained party seed transit := by
  obtain ⟨sender, receiver, handling⟩ := transit
  cases handling with
  | sent message =>
    show [] ++ _ = [] ++ _
    unfold gained
    cases (party.advance seed sender (.sent message)).next with
    | none => rfl
    | some later =>
      show (([⟨sender, receiver, later⟩] : List Transit).filterMap Transit.pending) =
        later.pending.toList.map (receiver, ·)
      cases isPending : later.pending with
      | none => simp [Transit.pending, isPending]
      | some entry => simp [Transit.pending, isPending]
  | save id verified wasNew => cases wasNew <;> rfl
  | add id verified wasNew => cases wasNew <;> rfl
  | fanOut id verified => rfl

theorem count_settle [DecidableEq Entry] (split : network.transits = before ++ transit :: after)
    (party : Party) (seed : PeerId → UInt64) (entry : Entry) :
    ((network.settle before transit after party seed).fanOuts ++
      (network.settle before transit after party seed).pending).count entry =
    (network.fanOuts ++ network.pending).count entry + (gained party seed transit).count entry := by
  have moved := congrArg (List.count entry) (ledger party seed transit)
  have single : ([transit] : List Transit).filterMap Transit.pending = transit.pending.toList := by
    cases isPending : transit.pending with
    | none => simp [isPending]
    | some found => simp [isPending]
  have listed : network.pending = before.filterMap Transit.pending ++ transit.pending.toList ++
      after.filterMap Transit.pending := by
    rw [pending, split, filterMap_append, ← singleton_append, filterMap_append, single,
      append_assoc]
  rw [listed]
  unfold settle pending
  dsimp only
  simp only [filterMap_append, pending_depart, append_nil, count_append] at moved ⊢
  omega

theorem mem_transits_settle {other : Transit} :
    other ∈ (network.settle before transit after party seed).transits ↔
      other ∈ before ∨ other ∈ after ∨
      (∃ later, (party.advance seed transit.sender transit.handling).next = some later ∧
        other = { transit with handling := later }) ∨
      other ∈ depart transit.receiver (party.advance seed transit.sender transit.handling).fanOut := by
  unfold settle
  simp only [mem_append, mem_map, Option.mem_toList]
  refine ⟨fun listed => ?_, fun listed => ?_⟩
  · rcases listed with ((earlier | ⟨later, isLater, same⟩) | later) | departed
    · exact Or.inl earlier
    · exact Or.inr (Or.inr (Or.inl ⟨later, isLater, same.symm⟩))
    · exact Or.inr (Or.inl later)
    · exact Or.inr (Or.inr (Or.inr departed))
  · rcases listed with earlier | later | ⟨later, isLater, same⟩ | departed
    · exact Or.inl (Or.inl (Or.inl earlier))
    · exact Or.inl (Or.inr later)
    · exact Or.inl (Or.inl (Or.inr ⟨later, isLater, same.symm⟩))
    · exact Or.inr departed

theorem mem_depart {sender : PeerId} {fanOut : Option FanOut} {other : Transit} :
    other ∈ depart sender fanOut ↔ ∃ sends, fanOut = some sends ∧ ∃ message ∈ sends.messages,
      other = ⟨sender, message.1, .sent message.2⟩ := by
  unfold depart
  simp only [mem_map, mem_flatMap, Option.mem_toList]
  refine ⟨fun ⟨message, ⟨sends, isSends, listed⟩, same⟩ => ?_, fun ⟨sends, isSends, message, listed, same⟩ => ?_⟩
  · exact ⟨sends, isSends, message, listed, same.symm⟩
  · exact ⟨message, ⟨sends, isSends, listed⟩, same.symm⟩

theorem mem_settle [DecidableEq Entry] (split : network.transits = before ++ transit :: after)
    {entry : Entry} :
    entry ∈ (network.settle before transit after party seed).fanOuts ++
      (network.settle before transit after party seed).pending ↔
    entry ∈ network.fanOuts ++ network.pending ∨ entry ∈ gained party seed transit := by
  have counted := count_settle split party seed entry
  rw [← count_pos_iff, ← count_pos_iff, ← count_pos_iff]
  omega

theorem gained_cases (party : Party) (seed : PeerId → UInt64) (transit : Transit) :
    gained party seed transit = [] ∨ ∃ message id verified, transit.handling = .sent message ∧
      party.accepted transit.sender message = some (id, verified) ∧
      (party.node.withHydratedRef id fun owner =>
        !owner.tree.knows verified.item.key).2.getD true = true ∧
      gained party seed transit = [(transit.receiver, id, verified.item.key)] := by
  obtain ⟨sender, receiver, handling⟩ := transit
  cases handling with
  | sent message =>
    cases accepts : party.accepted sender message with
    | none =>
      left
      unfold gained
      dsimp only
      rw [advance_dropped accepts]
      rfl
    | some found =>
      obtain ⟨id, verified⟩ := found
      unfold gained
      dsimp only
      rw [advance_accepted accepts]
      cases new : (party.node.withHydratedRef id fun owner =>
          !owner.tree.knows verified.item.key).2.getD true with
      | false => exact Or.inl rfl
      | true => exact Or.inr ⟨message, id, verified, rfl, accepts, new, rfl⟩
  | _ => exact Or.inl rfl

theorem Stored.settle {entry : Entry} (stored : network.Stored entry)
    (member : network.parties.get? transit.receiver = some party) :
    (network.settle before transit after party seed).Stored entry := by
  obtain ⟨holder, isHolder, item, has, isKey⟩ := stored
  by_cases same : entry.1 = transit.receiver
  · obtain rfl : party = holder := by
      rw [same, member] at isHolder
      exact Option.some.inj isHolder
    refine ⟨_, by rw [same]; exact FinMap.get?_insert_self _ _ _, item, ?_, isKey⟩
    rw [advance_storage]
    split
    · exact has.save _
    · exact has
  · exact ⟨holder, (FinMap.get?_insert_of_ne _ _ same).trans isHolder, item, has, isKey⟩

theorem stored_of_saving {entry : Entry} (saving : transit.saving = some entry)
    (remembers : party.Remembers transit.sender transit.handling) :
    (network.settle before transit after party seed).Stored entry := by
  obtain ⟨sender, receiver, handling⟩ := transit
  cases handling with
  | save id verified wasNew =>
    obtain rfl : (receiver, id, verified.item.key) = entry := Option.some.inj saving
    exact ⟨_, FinMap.get?_insert_self _ _ _, verified.item,
      VerifiedItem.has_save_self remembers, rfl⟩
  | _ => exact nomatch saving

theorem Once.settle [DecidableEq Entry] (once : network.Once)
    (split : network.transits = before ++ transit :: after)
    (member : network.parties.get? transit.receiver = some party)
    (remembers : party.Remembers transit.sender transit.handling)
    (alone : ∀ message ∈ transit.handling.message?, ∀ judged ∈ party.accepted transit.sender message,
      ∀ other ∈ network.transits, other.saving ≠ some (transit.receiver, judged.1, judged.2.item.key)) :
    (network.settle before transit after party seed).Once := by
  have news := gained_cases party seed transit
  -- what is judged new was neither sent on nor is it going to be
  have fresh : ∀ entry ∈ gained party seed transit, entry ∉ network.fanOuts ++ network.pending := by
    rcases news with none | ⟨message, id, verified, isSent, accepts, new, single⟩
    · rw [none]
      exact fun entry impossible => nomatch impossible
    · rw [single]
      intro entry isEntry old
      obtain rfl := mem_singleton.mp isEntry
      rw [isSent] at remembers
      rcases once.known _ old with ⟨holder, isHolder, item, has, isKey⟩ | ⟨other, listed, saving⟩
      · obtain rfl := Option.some.inj (member.symm.trans isHolder)
        exact not_stored_of_new accepts remembers new has isKey
      · exact alone message (by rw [isSent]; rfl) _ accepts other listed saving
  refine ⟨nodup_iff_count_le_one.mpr fun entry => ?_, fun entry isEntry => ?_,
    fun other listed handled => ?_⟩
  · have before := nodup_iff_count_le_one.mp once.nodup entry
    rw [count_settle split]
    rcases news with none | ⟨_, _, _, _, _, _, single⟩
    · rw [none]
      exact before
    · by_cases isNew : entry ∈ gained party seed transit
      · rw [count_eq_zero.mpr (fresh entry isNew), single, Nat.zero_add]
        exact nodup_iff_count_le_one.mp (nodup_singleton _) entry
      · rw [count_eq_zero.mpr isNew]
        exact before
  · rcases (mem_settle split).mp isEntry with old | new
    · rcases once.known entry old with stored | ⟨other, listed, saving⟩
      · exact Or.inl (stored.settle member)
      · rw [split] at listed
        rcases mem_append.mp listed with earlier | later
        · exact Or.inr ⟨other, mem_transits_settle.mpr (Or.inl earlier), saving⟩
        · rcases mem_cons.mp later with rfl | later
          · exact Or.inl (stored_of_saving saving remembers)
          · exact Or.inr ⟨other, mem_transits_settle.mpr (Or.inr (Or.inl later)), saving⟩
    · rcases news with none | ⟨message, id, verified, isSent, accepts, isNew, single⟩
      · rw [none] at new
        exact nomatch new
      · rw [single] at new
        obtain rfl := mem_singleton.mp new
        refine Or.inr ⟨_, mem_transits_settle.mpr (Or.inr (Or.inr (Or.inl
          ⟨.save id verified true, ?_, rfl⟩))), rfl⟩
        rw [isSent, advance_accepted accepts, isNew]
  · have old : other ∈ before ∨ other ∈ after →
        other.receiver ∈ (network.settle before transit after party seed).parties.keys := by
      intro either
      have listed : other ∈ network.transits := by
        rw [split]
        exact either.elim (mem_append_left _) fun later =>
          mem_append_right _ (mem_cons_of_mem _ later)
      exact FinMap.keys_insert network.parties _ _ ▸
        Finset.mem_insert_of_mem (once.inside other listed handled)
    rcases mem_transits_settle.mp listed with earlier | later | ⟨later, -, rfl⟩ | departed
    · exact old (Or.inl earlier)
    · exact old (Or.inr later)
    · exact FinMap.keys_insert network.parties _ _ ▸ Finset.mem_insert_self _ _
    · obtain ⟨_, _, message, _, rfl⟩ := mem_depart.mp departed
      exact nomatch handled

end Settle

theorem Once.step [DecidableEq Entry] {network : Network} {event : NetworkEvent} (once : network.Once)
    (remembers : network.Remembers event) : (network.step event).Once := by
  rcases network.step_cases event with ⟨sender, receiver, message, -, result⟩ | result |
    ⟨before, transit, after, split, outside, result⟩ |
    ⟨index, seed, before, transit, after, party, rfl, found, split, member, result⟩
  · have same : (network.step event).pending = network.pending := by
      rw [result, pending, pending]
      dsimp only
      rw [filterMap_append]
      exact append_nil _
    refine ⟨?_, fun entry isEntry => ?_, fun other listed handled => ?_⟩
    · rw [same, result]
      exact once.nodup
    · rw [same, result] at isEntry
      rw [result]
      exact (once.known entry isEntry).imp id fun ⟨other, listed, saving⟩ =>
        ⟨other, mem_append_left _ listed, saving⟩
    · rw [result] at listed ⊢
      rcases mem_append.mp listed with old | new
      · exact once.inside other old handled
      · obtain rfl := mem_singleton.mp new
        exact nomatch handled
  · rw [result]
    exact once
  · -- what a peer outside drops is on its way, so it is neither pending nor being saved
    have isSent : transit.handling.message? ≠ none := fun handled =>
      FinMap.get?_eq_none.mp outside (once.inside transit (by rw [split]; simp) handled)
    obtain ⟨sender, receiver, handling⟩ := transit
    cases handling with
    | sent message =>
      have same : (network.step event).pending = network.pending := by
        rw [result, pending, pending, split]
        dsimp only
        rw [filterMap_append, filterMap_append]
        rfl
      refine ⟨?_, fun entry isEntry => ?_, fun other listed handled => ?_⟩
      · rw [same, result]
        exact once.nodup
      · rw [same, result] at isEntry
        rw [result]
        refine (once.known entry isEntry).imp id fun ⟨other, listed, saving⟩ => ⟨other, ?_, saving⟩
        rw [split] at listed
        rcases mem_append.mp listed with earlier | later
        · exact mem_append_left _ earlier
        · rcases mem_cons.mp later with rfl | later
          · exact nomatch saving
          · exact mem_append_right _ later
      · rw [result] at listed ⊢
        refine once.inside other ?_ handled
        rw [split]
        rcases mem_append.mp listed with earlier | later
        · exact mem_append_left _ earlier
        · exact mem_append_right _ (mem_cons_of_mem _ later)
    | _ => exact absurd rfl isSent
  · rw [result]
    obtain ⟨here, alone⟩ := remembers transit found party member
    exact once.settle split member here alone

/-! ### The number of messages -/

/-- The items that the messages from outside bring. -/
def injected (events : List NetworkEvent) : List (SedimentreeId × ItemKey) :=
  events.filterMap fun
    | .inject _ _ message => message.carries.map fun carried => (carried.1, carried.2.key)
    | .advance _ _ => none

def width (parties : FinMap PeerId Party) : Nat :=
  parties.keys.sup fun peer => ((parties.get? peer).map Party.width).getD 0

/-- **What bounds the number of messages**: the nodes stay the same, with their connections, every item
on its way is among the given ones, and every fan-out pays for its messages. -/
structure Bounded (members : Finset PeerId) (most : Nat) (items : List (SedimentreeId × ItemKey))
    (network : Network) : Prop where
  keys : network.parties.keys = members
  narrow : ∀ peer party, network.parties.get? peer = some party → party.width ≤ most
  carried : ∀ transit ∈ network.transits, ∀ found ∈ transit.handling.carries,
    (found.1, found.2.key) ∈ items
  listed : ∀ entry ∈ network.fanOuts, entry.1 ∈ members ∧ entry.2 ∈ items
  paid : network.sent.length ≤ network.fanOuts.length * (most + 1)

section Bounded

variable {members : Finset PeerId} {most : Nat} {items : List (SedimentreeId × ItemKey)}
  {network : Network} {before after : List Transit} {transit : Transit} {party : Party}
  {seed : PeerId → UInt64}

theorem carries_next {sender : PeerId} {handling later : Handling}
    (goesOn : (party.advance seed sender handling).next = some later) :
    later.carries = handling.carries := by
  cases handling with
  | sent message =>
    cases accepts : party.accepted sender message with
    | none =>
      rw [advance_dropped accepts] at goesOn
      exact nomatch goesOn
    | some found =>
      rw [advance_accepted accepts] at goesOn
      obtain rfl := Option.some.inj goesOn
      exact (carries_of_accepted accepts).symm
  | save id verified wasNew =>
    obtain rfl := Option.some.inj goesOn
    rfl
  | add id verified wasNew =>
    cases wasNew with
    | true =>
      obtain rfl := Option.some.inj goesOn
      rfl
    | false => exact nomatch goesOn
  | fanOut id verified => exact nomatch goesOn

theorem fanOut_cases (party : Party) (seed : PeerId → UInt64) (sender : PeerId) (handling : Handling) :
    (party.advance seed sender handling).fanOut = none ∨
      ∃ id verified, handling = .fanOut id verified := by
  cases handling with
  | sent message =>
    cases accepts : party.accepted sender message with
    | none => exact Or.inl (by rw [advance_dropped accepts])
    | some found => exact Or.inl (by rw [advance_accepted accepts])
  | save id verified wasNew => exact Or.inl rfl
  | add id verified wasNew => exact Or.inl rfl
  | fanOut id verified => exact Or.inr ⟨id, verified, rfl⟩

theorem length_depart_le (narrow : party.width ≤ most) :
    (depart transit.receiver (party.advance seed transit.sender transit.handling).fanOut).length ≤
      transit.fansOut.toList.length * (most + 1) := by
  rcases fanOut_cases party seed transit.sender transit.handling with none | ⟨id, verified, isFanOut⟩
  · rw [none]
    exact Nat.zero_le _
  · have single : transit.fansOut.toList.length = 1 := by
      rw [Transit.fansOut, isFanOut]
      rfl
    rw [single, Nat.one_mul, depart, length_map]
    cases sends : (party.advance seed transit.sender transit.handling).fanOut with
    | none => exact Nat.zero_le _
    | some fanOut =>
      have few := length_messages_le sends
      simp only [Option.toList_some, flatMap_singleton]
      omega

theorem Bounded.settle (bounded : network.Bounded members most items)
    (split : network.transits = before ++ transit :: after)
    (member : network.parties.get? transit.receiver = some party) :
    (network.settle before transit after party seed).Bounded members most items := by
  have here : transit ∈ network.transits := by
    rw [split]
    exact mem_append_right _ mem_cons_self
  have isMember : transit.receiver ∈ members := bounded.keys ▸ FinMap.mem_keys_of_get? member
  refine ⟨?_, fun peer other found => ?_, fun other listed found carried => ?_,
    fun entry listed => ?_, ?_⟩
  · show (network.parties.insert _ _).keys = members
    rw [FinMap.keys_insert, bounded.keys, Finset.insert_eq_of_mem isMember]
  · by_cases same : peer = transit.receiver
    · obtain rfl := Option.some.inj ((FinMap.get?_insert_self _ _ _).symm.trans (same ▸ found))
      rw [advance_width]
      exact bounded.narrow _ party member
    · exact bounded.narrow peer other ((FinMap.get?_insert_of_ne _ _ same).symm.trans found)
  · have old : other ∈ before ∨ other ∈ after → other ∈ network.transits := by
      intro either
      rw [split]
      exact either.elim (mem_append_left _) fun later =>
        mem_append_right _ (mem_cons_of_mem _ later)
    rcases mem_transits_settle.mp listed with earlier | later | ⟨later, goesOn, rfl⟩ | departed
    · exact bounded.carried other (old (Or.inl earlier)) found carried
    · exact bounded.carried other (old (Or.inr later)) found carried
    · rw [carries_next goesOn] at carried
      exact bounded.carried transit here found carried
    · obtain ⟨sends, isSends, message, inMessages, rfl⟩ := mem_depart.mp departed
      rcases fanOut_cases party seed transit.sender transit.handling with none | ⟨id, verified, isFanOut⟩
      · exact nomatch none.symm.trans isSends
      · rw [isFanOut] at isSends
        rcases carries_of_mem_messages isSends inMessages with nothing | item
        · exact nomatch nothing.symm.trans carried
        · refine bounded.carried transit here found ?_
          rw [isFanOut]
          exact item.symm.trans carried
  · rcases mem_append.mp listed with old | new
    · exact bounded.listed entry old
    · obtain ⟨key, isKey, rfl⟩ := Option.map_eq_some_iff.mp (Option.mem_toList.mp new)
      refine ⟨isMember, ?_⟩
      cases isFanOut : transit.handling with
      | fanOut id verified =>
        rw [isFanOut] at isKey
        obtain rfl := Option.some.inj isKey
        exact bounded.carried transit here (id, verified.item) (by rw [isFanOut]; rfl)
      | _ =>
        rw [isFanOut] at isKey
        exact nomatch isKey
  · show (network.sent ++ _).length ≤ (network.fanOuts ++ _).length * _
    rw [length_append, length_append, Nat.add_mul]
    exact Nat.add_le_add bounded.paid (length_depart_le (bounded.narrow _ party member))

/-- The item of a message from outside is among the given ones. -/
def Brings (items : List (SedimentreeId × ItemKey)) : NetworkEvent → Prop
  | .inject _ _ message => ∀ found ∈ message.carries, (found.1, found.2.key) ∈ items
  | .advance _ _ => True

theorem Bounded.step {event : NetworkEvent} (bounded : network.Bounded members most items)
    (brings : Brings items event) : (network.step event).Bounded members most items := by
  rcases network.step_cases event with ⟨sender, receiver, message, rfl, result⟩ | result |
    ⟨before, transit, after, split, outside, result⟩ |
    ⟨index, seed, before, transit, after, party, rfl, found, split, member, result⟩
  · rw [result]
    refine ⟨bounded.keys, bounded.narrow, fun other listed found carried => ?_, bounded.listed,
      bounded.paid⟩
    rcases mem_append.mp listed with old | new
    · exact bounded.carried other old found carried
    · obtain rfl := mem_singleton.mp new
      exact brings found carried
  · rw [result]
    exact bounded
  · rw [result]
    refine ⟨bounded.keys, bounded.narrow, fun other listed found carried => ?_, bounded.listed,
      bounded.paid⟩
    refine bounded.carried other ?_ found carried
    rw [split]
    rcases mem_append.mp listed with earlier | later
    · exact mem_append_left _ earlier
    · exact mem_append_right _ (mem_cons_of_mem _ later)
  · rw [result]
    exact bounded.settle split member

theorem bounded_start (parties : FinMap PeerId Party) (items : List (SedimentreeId × ItemKey)) :
    (start parties).Bounded parties.keys (width parties) items := by
  refine ⟨rfl, fun peer party found => ?_, fun _ impossible => (nomatch impossible),
    fun _ impossible => (nomatch impossible), Nat.zero_le _⟩
  have least := Finset.le_sup (f := fun peer => ((parties.get? peer).map Party.width).getD 0)
    (FinMap.mem_keys_of_get? found)
  rw [show parties.get? peer = some party from found] at least
  exact least

theorem once_start (parties : FinMap PeerId Party) : (start parties).Once :=
  ⟨nodup_nil, fun _ impossible => (nomatch impossible), fun _ impossible => (nomatch impossible)⟩

theorem brings_injected {events : List NetworkEvent} {event : NetworkEvent} (listed : event ∈ events) :
    Brings (injected events) event := by
  cases event with
  | inject sender receiver message =>
    intro found carried
    refine mem_filterMap.mpr ⟨_, listed, ?_⟩
    show message.carries.map _ = _
    rw [show message.carries = some found from carried]
    rfl
  | advance index seed => exact trivial

theorem Bounded.length_fanOuts_le [DecidableEq Entry] (bounded : network.Bounded members most items)
    (nodup : network.fanOuts.Nodup) : network.fanOuts.length ≤ members.card * items.length := by
  have within : network.fanOuts.toFinset ⊆ members ×ˢ items.toFinset := by
    intro entry listed
    obtain ⟨isMember, isItem⟩ := bounded.listed entry (mem_toFinset.mp listed)
    exact Finset.mem_product.mpr ⟨isMember, mem_toFinset.mpr isItem⟩
  calc network.fanOuts.length = network.fanOuts.toFinset.card :=
        (toFinset_card_of_nodup nodup).symm
    _ ≤ (members ×ˢ items.toFinset).card := Finset.card_le_card within
    _ = members.card * items.toFinset.card := Finset.card_product _ _
    _ ≤ members.card * items.length := Nat.mul_le_mul_left _ (toFinset_card_le items)

end Bounded

/-- **Every node sends every item on at most once**, whatever the nodes hold at the start, whoever
subscribes to whom and in whatever order messages arrive and are worked on; and so the number of messages
is bounded by the number of items from outside. The nodes do not forget what they have stored. -/
theorem fans_out_once (parties : FinMap PeerId Party) (events : List NetworkEvent)
    (remembers : Along step Remembers (start parties) events) :
    (events.foldl step (start parties)).fanOuts.Nodup ∧
      (events.foldl step (start parties)).sent.length ≤
        parties.keys.card * (injected events).length * (width parties + 1) := by
  have once : (events.foldl step (start parties)).Once :=
    remembers.keeps (fun _ _ once remembers => once.step remembers) (once_start parties)
  have bounded : (events.foldl step (start parties)).Bounded parties.keys (width parties)
      (injected events) :=
    (remembers.and_mem fun _ listed => brings_injected listed).keeps
      (fun _ _ bounded both => bounded.step both.2) (bounded_start parties _)
  have nodup := (List.nodup_append.mp once.nodup).1
  refine ⟨nodup, le_trans bounded.paid ?_⟩
  exact Nat.mul_le_mul_right _ (bounded.length_fanOuts_le nodup)

end Network

end Networks

/-! ### A ring of three nodes -/

def coverBlob : Blob := ⟨[2]⟩

/-- A fragment of document `1` with the head of its commit. -/
def coverOfOne [Blake3] : Fragment := Fragment.new ⟨1⟩ ⟨5⟩ ∅ ∅ (BlobMeta.new coverBlob)

attribute [local instance] IterOrder.ascending eightBytes lastBytes shownKeys

def verifiedCover : VerifiedMeta Fragment :=
  ⟨⟨.sealPayload (signerOf 1) coverOfOne, coverOfOne, by decide +kernel⟩, coverBlob, rfl⟩

/-- A node with the given storage and one subscriber of document `1`, where everybody may do
everything. -/
def ringParty [Blake3] [Bijou64Codec] (storage : MemoryStorage) (subscriber : PeerId) : Party where
  node := ⟨storage, fun _ => none⟩
  policy := fun _ _ _ => true
  depthMetric := fun id => if id = ⟨5⟩ then 1 else 0
  subscriptions := (∅ : FinMap SedimentreeId (Finset PeerId)).insert ⟨1⟩ {subscriber}
  filterAuthorizedFetch := fun _ _ => true
  connections := (∅ : FinMap PeerId Nat).insert subscriber 1
  sendCounter := ∅

/-- Three nodes in a ring, with the same storage. -/
def ring [Blake3] [Bijou64Codec] (storage : MemoryStorage) : FinMap PeerId Party :=
  (((∅ : FinMap PeerId Party).insert ⟨1⟩ (ringParty storage ⟨2⟩)).insert ⟨2⟩
    (ringParty storage ⟨3⟩)).insert ⟨3⟩ (ringParty storage ⟨1⟩)

/-- The commit comes to the first node once and then goes round: each of the four visits takes four
steps, and the push of a visit is behind the acknowledgements of the earlier ones. -/
def roundTrip [Blake3] [Bijou64Codec] : List NetworkEvent :=
  .inject ⟨9⟩ ⟨1⟩ (.looseCommit ⟨1⟩ signedOfOne oneByte ⟨0, []⟩) ::
    [0, 0, 0, 0, 1, 1, 1, 1, 2, 2, 2, 2, 3, 3, 3, 3].map fun index => .advance index fun _ => 0

/-- The commit comes to the first node from two peers, and both handlers judge it before either saves
it. -/
def overlap [Blake3] [Bijou64Codec] : List NetworkEvent :=
  [.inject ⟨8⟩ ⟨1⟩ (.looseCommit ⟨1⟩ signedOfOne oneByte ⟨0, []⟩),
    .inject ⟨9⟩ ⟨1⟩ (.looseCommit ⟨1⟩ signedOfOne oneByte ⟨0, []⟩)] ++
    [0, 1, 0, 0, 0, 0, 0, 0].map fun index => .advance index fun _ => 0

/-- **A commit that a fragment covers goes round and round**: every node of the ring holds the fragment
and forgets the commit with the heads of its own fan-out, so the first node sends the commit on again
when it comes back. And two handlers that work on one commit at the same time both send it on. -/
theorem covered_commit_circulates : Network.injected roundTrip = [(⟨1⟩, .commit ⟨5⟩)] ∧
      (roundTrip.foldl Network.step
          (.start (ring (MemoryStorage.new.saveFragment ⟨1⟩ verifiedCover)))).fanOuts =
        [(⟨1⟩, ⟨1⟩, .commit ⟨5⟩), (⟨2⟩, ⟨1⟩, .commit ⟨5⟩), (⟨3⟩, ⟨1⟩, .commit ⟨5⟩),
          (⟨1⟩, ⟨1⟩, .commit ⟨5⟩)] ∧
      (overlap.foldl Network.step (.start (ring .new))).fanOuts =
        [(⟨1⟩, ⟨1⟩, .commit ⟨5⟩), (⟨1⟩, ⟨1⟩, .commit ⟨5⟩)] := by
  decide +kernel

/-- The same commit in a ring without the fragment: it goes round once. -/
theorem roundTrip_remembers :
    Along Network.step Network.Remembers (.start (ring .new)) roundTrip := by
  decide +kernel

theorem fans_out_once_ring : Along Network.step Network.Remembers (.start (ring .new)) roundTrip ∧
      (roundTrip.foldl Network.step (.start (ring .new))).fanOuts.Nodup ∧
      (roundTrip.foldl Network.step (.start (ring .new))).sent.length ≤
        (ring .new).keys.card * (Network.injected roundTrip).length * (Network.width (ring .new) + 1) :=
  ⟨roundTrip_remembers, @Network.fans_out_once lastBytes eightBytes (IterOrder.ascending CommitId)
    (IterOrder.ascending _) (IterOrder.ascending _) shownKeys (IterOrder.ascending PeerId) _ _
    roundTrip_remembers⟩

end Subduction
