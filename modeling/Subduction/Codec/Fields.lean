/-
**The codecs of commits and fragments are inverse to each other.**

Every reader of the codec accepts exactly the bytes that are written for a value. The counts of the
variable parts take one byte (parents, boundary) or two (checkpoints): the fields of an item decode
to the item exactly when its counts fit.

* **`LooseCommit.tryDecodeFields_eq_ok`**, **`Fragment.tryDecodeFields_eq_ok`** — decoding the fields
  reads one encoding off the front of the buffer.
-/

import Subduction.Codec.Decode
import Subduction.Lib.Reading

set_option linter.unusedSectionVars false

namespace Subduction

open Decode List

/-! ### Variable-length integers -/

/-- **The variable-length integers are a prefix-free bijection**: a number is decoded exactly from
the buffers that start with its encoding. -/
class LawfulBijou64 [Bijou64Codec] : Prop where
  decode_eq_some : ∀ (bytes : List UInt8) (number : UInt64) (size : Nat),
    Bijou64Codec.decode bytes = some (number, size) ↔
      Bijou64.encode number <+: bytes ∧ size = (Bijou64.encode number).length

/-- `bijoux::u64::encoded_len`. -/
def Bijou64.encodedLen [Bijou64] (number : UInt64) : Nat := (Bijou64.encode number).length

/-- An encoding is not empty: the empty one would be a prefix of all others. -/
theorem LawfulBijou64.encode_pos [Bijou64Codec] [LawfulBijou64] (number : UInt64) :
    0 < (Bijou64.encode number).length := by
  rw [length_pos_iff]
  intro empty
  have other := (LawfulBijou64.decode_eq_some (Bijou64.encode (number + 1)) (number + 1) _).mpr
    ⟨prefix_rfl, rfl⟩
  have same := (LawfulBijou64.decode_eq_some (Bijou64.encode (number + 1)) number 0).mpr
    ⟨empty ▸ nil_prefix, by rw [empty]; rfl⟩
  have equal := (Prod.mk.inj (Option.some.inj (other.symm.trans same))).1
  simp at equal

/-! ### What the readers accept -/

variable {buf : List UInt8}

theorem bytesBE_isPrefix_drop {n : Nat} (positive : 0 < n) {offset : Nat}
    {number : BitVec (8 * n)} :
    bytesBE n number <+: buf.drop offset ↔
      offset + n ≤ buf.length ∧ ofBytesBE n ((buf.drop offset).take n) = number := by
  rw [isPrefix_drop_iff_take (length_bytesBE n number) positive]
  refine and_congr_right fun fits => ?_
  have size : ((buf.drop offset).take n).length = n := by
    rw [length_take, length_drop]
    omega
  constructor
  · intro same
    rw [same, ofBytesBE_bytesBE]
  · intro same
    rw [← same, bytesBE_ofBytesBE size]

namespace Decode

variable {buf : List UInt8} {offset : Nat}

theorem array_eq_ok {n : Nat} (positive : 0 < n)
    {number : BitVec (8 * n)} :
    array n buf offset = .ok number ↔ bytesBE n number <+: buf.drop offset := by
  rw [bytesBE_isPrefix_drop positive]
  unfold array
  split <;> simp [*]

theorem u8_eq_ok {byte : UInt8} : u8 buf offset = .ok byte ↔ [byte] <+: buf.drop offset := by
  unfold u8
  rw [singleton_prefix_iff_head?_eq_some, List.head?_drop]
  cases buf[offset]? <;> simp

theorem u16_eq_ok {number : UInt16} :
    u16 buf offset = .ok number ↔ bytesBE 2 number.toBitVec <+: buf.drop offset := by
  rw [bytesBE_isPrefix_drop two_pos]
  unfold u16
  split <;> simp [*, ← UInt16.toBitVec_inj]

theorem u32_eq_ok {number : UInt32} :
    u32 buf offset = .ok number ↔ bytesBE 4 number.toBitVec <+: buf.drop offset := by
  rw [bytesBE_isPrefix_drop four_pos]
  unfold u32
  split <;> simp [*, ← UInt32.toBitVec_inj]

theorem u64_eq_ok {number : UInt64} :
    u64 buf offset = .ok number ↔ bytesBE 8 number.toBitVec <+: buf.drop offset := by
  rw [bytesBE_isPrefix_drop (by decide)]
  unfold u64
  split <;> simp [*, ← UInt64.toBitVec_inj]

theorem bijou64_eq_ok [Bijou64Codec] [LawfulBijou64] {size : Nat}
    {number : UInt64} :
    bijou64 buf offset = .ok (number, size) ↔
      Bijou64.encode number <+: buf.drop offset ∧ size = (Bijou64.encode number).length := by
  rw [← LawfulBijou64.decode_eq_some]
  unfold bijou64
  cases Bijou64Codec.decode (buf.drop offset) <;> simp

theorem arrays_eq_ok {n : Nat} (positive : 0 < n) {count : Nat}
    {numbers : List (BitVec (8 * n))} :
    arrays n buf count offset = .ok numbers ↔
      numbers.length = count ∧ numbers.flatMap (bytesBE n) <+: buf.drop offset := by
  induction count generalizing offset numbers with
  | zero =>
    show Except.ok [] = Except.ok numbers ↔ _
    cases numbers <;> simp
  | succ count ih =>
    simp only [arrays, bind_eq_ok, array_eq_ok positive, ih]
    constructor
    · rintro ⟨first, stands, rest, ⟨size, standsRest⟩, done⟩
      obtain rfl := Except.ok.inj done
      refine ⟨by rw [length_cons, size], ?_⟩
      rw [flatMap_cons, append_isPrefix_drop, length_bytesBE]
      exact ⟨stands, standsRest⟩
    · rintro ⟨size, stands⟩
      cases numbers with
      | nil => exact nomatch size
      | cons first rest =>
        rw [flatMap_cons, append_isPrefix_drop, length_bytesBE] at stands
        exact ⟨first, stands.1, rest, ⟨Nat.succ.inj size, stands.2⟩, rfl⟩

theorem verifySorted_eq_ok {n : Nat} {numbers : List (BitVec (8 * n))} {index : Nat} {done : Unit} :
    verifySorted numbers index = .ok done ↔ numbers.Pairwise (· < ·) := by
  rw [← isChain_iff_pairwise]
  induction numbers generalizing index with
  | nil => simp [verifySorted]
  | cons prev rest ih =>
    cases rest with
    | nil => simp [verifySorted]
    | cons curr rest =>
      rw [verifySorted, isChain_cons_cons]
      by_cases ascending : prev < curr
      · rw [if_neg (BitVec.not_le.mpr ascending), ih]
        simp [ascending]
      · rw [if_pos (BitVec.not_lt.mp ascending)]
        simp [ascending]

end Decode

/-! ### Sets on the wire -/

section Sets

variable {K : Type} [LinearOrder K] [DecidableEq K] {n : Nat} {mk : BitVec (8 * n) → K}
  {bytes : K → BitVec (8 * n)} (mk_bytes : ∀ key, mk (bytes key) = key)
  (bytes_mk : ∀ number, bytes (mk number) = number)
  (mk_lt_mk : ∀ first second, mk first < mk second ↔ first < second) {keys : Finset K}

include mk_bytes bytes_mk mk_lt_mk

theorem eq_map_ascendingList_iff {numbers : List (BitVec (8 * n))} :
    numbers = (ascendingList keys).map bytes ↔
      numbers.Pairwise (· < ·) ∧ (numbers.map mk).toFinset = keys := by
  have ascending : numbers.Pairwise (· < ·) ↔ (numbers.map mk).Pairwise (· < ·) := by
    simp only [pairwise_map, mk_lt_mk]
  rw [ascending, ← eq_ascendingList_iff]
  constructor
  · rintro rfl
    simp [Function.comp_def, mk_bytes]
  · intro same
    rw [← same]
    simp [Function.comp_def, bytes_mk]

/-- **A counted set is read** exactly where its elements stand in ascending order. -/
theorem exists_ascending_numbers_iff {count : Nat} :
    (∃ numbers : List (BitVec (8 * n)), (numbers.length = count ∧ numbers.flatMap (bytesBE n) <+: buf) ∧
        numbers.Pairwise (· < ·) ∧ (numbers.map mk).toFinset = keys) ↔
      keys.card = count ∧ (ascendingList keys).flatMap (fun key => bytesBE n (bytes key)) <+: buf := by
  simp only [← eq_map_ascendingList_iff mk_bytes bytes_mk mk_lt_mk, exists_eq_right, length_map,
    length_ascendingList, flatMap_map]

end Sets

theorem exists_commitIds_iff {ids : Finset CommitId} {count : Nat} :
    (∃ numbers : List (BitVec (8 * 32)), (numbers.length = count ∧
        numbers.flatMap (bytesBE 32) <+: buf) ∧
        numbers.Pairwise (· < ·) ∧ (numbers.map CommitId.mk).toFinset = ids) ↔
      ids.card = count ∧ (ascendingList ids).flatMap CommitId.asBytes <+: buf :=
  exists_ascending_numbers_iff (fun _ => rfl) (fun _ => rfl) fun _ _ => Iff.rfl

theorem exists_checkpoints_iff {points : Finset Checkpoint} {count : Nat} :
    (∃ numbers : List (BitVec (8 * 12)), (numbers.length = count ∧
        numbers.flatMap (bytesBE 12) <+: buf) ∧
        numbers.Pairwise (· < ·) ∧ (numbers.map Checkpoint.mk).toFinset = points) ↔
      points.card = count ∧ (ascendingList points).flatMap Checkpoint.asBytes <+: buf :=
  exists_ascending_numbers_iff (fun _ => rfl) (fun _ => rfl) fun _ _ => Iff.rfl

theorem length_flatMap_commitIds (ids : Finset CommitId) :
    ((ascendingList ids).flatMap CommitId.asBytes).length = ids.card * 32 := by
  simp

theorem length_flatMap_checkpoints (points : Finset Checkpoint) :
    ((ascendingList points).flatMap Checkpoint.asBytes).length = points.card * 12 := by
  simp


/-! ### Commits -/

/-- `LooseCommit::fields_size`. -/
def LooseCommit.fieldsSize [Bijou64] (commit : LooseCommit) : Nat :=
  codecFixedFieldsSize + Bijou64.encodedLen commit.blobMeta.sizeBytes + commit.parents.card * 32

/-- `Fragment::fields_size`. -/
def Fragment.fieldsSize [Bijou64] (fragment : Fragment) : Nat :=
  codecFixedFieldsSize + Bijou64.encodedLen fragment.summary.blobMeta.sizeBytes
    + fragment.boundary.card * 32 + fragment.checkpoints.card * 12

def LooseCommit.CountsFit (commit : LooseCommit) : Prop := commit.parents.card < 2 ^ 8

instance (commit : LooseCommit) : Decidable commit.CountsFit :=
  inferInstanceAs (Decidable (_ < _))

def Fragment.CountsFit (fragment : Fragment) : Prop :=
  fragment.boundary.card < 2 ^ 8 ∧ fragment.checkpoints.card < 2 ^ 16

instance (fragment : Fragment) : Decidable fragment.CountsFit :=
  inferInstanceAs (Decidable (_ ∧ _))

theorem LooseCommit.length_encodeFields [Bijou64] (commit : LooseCommit) :
    (EncodeFields.encodeFields commit).length = commit.fieldsSize := by
  simp [EncodeFields.encodeFields, fieldsSize, codecFixedFieldsSize, Bijou64.encodedLen]
  omega

theorem Fragment.length_encodeFields [Bijou64] (fragment : Fragment) :
    (EncodeFields.encodeFields fragment).length = fragment.fieldsSize := by
  simp [EncodeFields.encodeFields, fieldsSize, codecFixedFieldsSize, Bijou64.encodedLen]
  omega

section Laws

variable [Bijou64Codec] [LawfulBijou64]

variable {buf : List UInt8}

theorem LooseCommit.encodeFields_isPrefix {commit : LooseCommit} :
    EncodeFields.encodeFields commit <+: buf ↔
      bytesBE 32 commit.sedimentreeId.bytes <+: buf.drop 0 ∧
      bytesBE 32 commit.head.bytes <+: buf.drop 32 ∧
      bytesBE 32 commit.blobMeta.digest.bytes <+: buf.drop 64 ∧
      [UInt8.ofNat commit.parents.card] <+: buf.drop 96 ∧
      Bijou64.encode commit.blobMeta.sizeBytes <+: buf.drop 97 ∧
      (ascendingList commit.parents).flatMap CommitId.asBytes <+:
        buf.drop (97 + (Bijou64.encode commit.blobMeta.sizeBytes).length) := by
  rw [← drop_zero (l := buf)]
  simp only [EncodeFields.encodeFields, append_isPrefix_drop, SedimentreeId.asBytes,
    CommitId.asBytes, Digest.asBytes, and_assoc, length_append, length_bytesBE,
    length_singleton, drop_drop, Nat.zero_add]

theorem LooseCommit.tryDecodeFields_eq_ok {commit : LooseCommit} {size : Nat} :
    LooseCommit.tryDecodeFields buf = .ok (commit, size) ↔
      commit.CountsFit ∧ EncodeFields.encodeFields commit <+: buf ∧ size = commit.fieldsSize := by
  rw [encodeFields_isPrefix]
  simp only [LooseCommit.tryDecodeFields, bind_eq_ok, ensure_eq_ok, u8_eq_ok, Prod.exists,
    array_eq_ok (n := 32) (by decide), arrays_eq_ok (n := 32) (by decide),
    bijou64_eq_ok, verifySorted_eq_ok]
  constructor
  · rintro ⟨_, _, tree, treeAt, head, headAt, digest, digestAt, count, countAt, blobSize, _,
      ⟨sizeAt, rfl⟩, _, _, parents, parentsRead, _, ascending, done⟩
    obtain ⟨rfl, rfl⟩ := Prod.mk.inj (Except.ok.inj done)
    obtain ⟨card, parentsAt⟩ := exists_commitIds_iff.mp ⟨parents, parentsRead, ascending, rfl⟩
    refine ⟨?_, ⟨treeAt, headAt, digestAt, ?_, sizeAt, parentsAt⟩, ?_⟩
    · show (parents.map CommitId.mk).toFinset.card < _
      rw [card]
      exact count.toNat_lt
    · show [UInt8.ofNat (parents.map CommitId.mk).toFinset.card] <+: _
      rw [card, UInt8.ofNat_toNat]
      exact countAt
    · simp only [fieldsSize, codecFixedFieldsSize, Bijou64.encodedLen, card]
  · rintro ⟨fits, ⟨treeAt, headAt, digestAt, countAt, sizeAt, parentsAt⟩, rfl⟩
    have count : (UInt8.ofNat commit.parents.card).toNat = commit.parents.card :=
      UInt8.toNat_ofNat_of_lt' fits
    obtain ⟨parents, parentsRead, ascending, same⟩ := exists_commitIds_iff.mpr ⟨count.symm, parentsAt⟩
    have sizePos := LawfulBijou64.encode_pos commit.blobMeta.sizeBytes
    have sizeEnd := isPrefix_drop_length (.inl sizePos) sizeAt
    have parentsEnd := isPrefix_drop_length (.inr sizeEnd) parentsAt
    rw [length_flatMap_commitIds] at parentsEnd
    refine ⟨(), ?_, _, treeAt, _, headAt, _, digestAt, _, countAt, _, _, ⟨sizeAt, rfl⟩, (), ?_,
      parents, parentsRead, (), ascending, ?_⟩
    · unfold codecFixedFieldsSize
      omega
    · rw [count]
      exact parentsEnd
    · rw [same, count]
      rfl

theorem Fragment.encodeFields_isPrefix {fragment : Fragment} :
    EncodeFields.encodeFields fragment <+: buf ↔
      bytesBE 32 fragment.sedimentreeId.bytes <+: buf.drop 0 ∧
      bytesBE 32 fragment.head.bytes <+: buf.drop 32 ∧
      bytesBE 32 fragment.summary.blobMeta.digest.bytes <+: buf.drop 64 ∧
      [UInt8.ofNat fragment.boundary.card] <+: buf.drop 96 ∧
      bytesBE 2 (BitVec.ofNat (8 * 2) fragment.checkpoints.card) <+: buf.drop 97 ∧
      Bijou64.encode fragment.summary.blobMeta.sizeBytes <+: buf.drop 99 ∧
      (ascendingList fragment.boundary).flatMap CommitId.asBytes <+:
        buf.drop (99 + (Bijou64.encode fragment.summary.blobMeta.sizeBytes).length) ∧
      (ascendingList fragment.checkpoints).flatMap Checkpoint.asBytes <+:
        buf.drop (99 + (Bijou64.encode fragment.summary.blobMeta.sizeBytes).length
          + fragment.boundary.card * 32) := by
  rw [← drop_zero (l := buf)]
  simp only [EncodeFields.encodeFields, append_isPrefix_drop, and_assoc, length_append,
    length_flatMap_commitIds]
  simp only [SedimentreeId.asBytes, CommitId.asBytes, Digest.asBytes, length_bytesBE,
    length_singleton, drop_drop, Nat.zero_add]

theorem Fragment.tryDecodeFields_eq_ok {fragment : Fragment} {size : Nat} :
    Fragment.tryDecodeFields buf = .ok (fragment, size) ↔
      fragment.CountsFit ∧ EncodeFields.encodeFields fragment <+: buf ∧
        size = fragment.fieldsSize := by
  rw [encodeFields_isPrefix]
  simp only [Fragment.tryDecodeFields, bind_eq_ok, ensure_eq_ok, u8_eq_ok,
    u16_eq_ok, Prod.exists, array_eq_ok (n := 32) (by decide),
    arrays_eq_ok (n := 32) (by decide), arrays_eq_ok (n := 12) (by decide),
    bijou64_eq_ok, verifySorted_eq_ok]
  constructor
  · rintro ⟨_, _, tree, treeAt, head, headAt, digest, digestAt, count, countAt, pointCount, pointCountAt,
      blobSize, _, ⟨sizeAt, rfl⟩, _, _, boundary, boundaryRead, _, ascending, points, pointsRead, _,
      pointsAscending, done⟩
    obtain ⟨rfl, rfl⟩ := Prod.mk.inj (Except.ok.inj done)
    obtain ⟨card, boundaryAt⟩ := exists_commitIds_iff.mp ⟨boundary, boundaryRead, ascending, rfl⟩
    obtain ⟨pointCard, pointsAt⟩ :=
      exists_checkpoints_iff.mp ⟨points, pointsRead, pointsAscending, rfl⟩
    refine ⟨⟨?_, ?_⟩, ⟨treeAt, headAt, digestAt, ?_, ?_, sizeAt, boundaryAt, ?_⟩, ?_⟩
    · show (boundary.map CommitId.mk).toFinset.card < _
      rw [card]
      exact count.toNat_lt
    · show (points.map Checkpoint.mk).toFinset.card < _
      rw [pointCard]
      exact pointCount.toNat_lt
    · show [UInt8.ofNat (boundary.map CommitId.mk).toFinset.card] <+: _
      rw [card, UInt8.ofNat_toNat]
      exact countAt
    · show bytesBE 2 (BitVec.ofNat (8 * 2) (points.map Checkpoint.mk).toFinset.card) <+: _
      rw [pointCard]
      simpa using pointCountAt
    · show _ <+: buf.drop (_ + (boundary.map CommitId.mk).toFinset.card * 32)
      rw [card]
      exact pointsAt
    · simp only [fieldsSize, codecFixedFieldsSize, Bijou64.encodedLen, Fragment.boundary, card, pointCard,
        Nat.add_assoc]
      omega
  · rintro ⟨⟨fits, pointsFit⟩, ⟨treeAt, headAt, digestAt, countAt, pointCountAt, sizeAt, boundaryAt,
      pointsAt⟩, rfl⟩
    have count : (UInt8.ofNat fragment.boundary.card).toNat = fragment.boundary.card :=
      UInt8.toNat_ofNat_of_lt' fits
    have pointCount : (UInt16.ofNat fragment.checkpoints.card).toNat = fragment.checkpoints.card :=
      UInt16.toNat_ofNat_of_lt' pointsFit
    obtain ⟨boundary, boundaryRead, ascending, same⟩ :=
      exists_commitIds_iff.mpr ⟨count.symm, boundaryAt⟩
    obtain ⟨points, pointsRead, pointsAscending, samePoints⟩ :=
      exists_checkpoints_iff.mpr ⟨pointCount.symm, pointsAt⟩
    have sizePos := LawfulBijou64.encode_pos fragment.summary.blobMeta.sizeBytes
    have sizeEnd := isPrefix_drop_length (.inl sizePos) sizeAt
    have boundaryEnd := isPrefix_drop_length (.inr sizeEnd) boundaryAt
    rw [length_flatMap_commitIds] at boundaryEnd
    have pointsEnd := isPrefix_drop_length (.inr boundaryEnd) pointsAt
    rw [length_flatMap_checkpoints] at pointsEnd
    refine ⟨(), ?_, _, treeAt, _, headAt, _, digestAt, _, countAt, _, pointCountAt, _, _, ⟨sizeAt, rfl⟩,
      (), ?_, boundary, boundaryRead, (), ascending, points, ?_, (), pointsAscending, ?_⟩
    · unfold codecFixedFieldsSize
      omega
    · show _ + (UInt8.toNat _ * 32 + UInt16.toNat (UInt16.ofNat _) * 12) ≤ _
      rw [count, pointCount]
      omega
    · rw [count]
      exact pointsRead
    · show Except.ok (_, _ + (UInt8.toNat _ * 32 + UInt16.toNat (UInt16.ofNat _) * 12)) = _
      rw [same, samePoints, count, pointCount, fieldsSize, Bijou64.encodedLen, ← Nat.add_assoc]
      rfl

end Laws

theorem eightBytes_lawful : @LawfulBijou64 eightBytes := by
  refine @LawfulBijou64.mk eightBytes fun bytes number size => ?_
  show (if 8 ≤ bytes.length then some (UInt64.ofBitVec (ofBytesBE 8 (bytes.take 8)), 8) else none) =
    some (number, size) ↔ bytesBE 8 number.toBitVec <+: bytes ∧ size = (bytesBE 8 number.toBitVec).length
  have stands := @bytesBE_isPrefix_drop bytes 8 (by decide) 0 number.toBitVec
  rw [drop_zero, Nat.zero_add] at stands
  rw [stands, length_bytesBE]
  split <;> simp [*, ← UInt64.toBitVec_inj, eq_comm]

/-! ### The codecs are inverse -/

/-- **The codecs of commits and fragments are inverse to each other.** The fields of an item decode
to the item, whatever stands behind them, exactly when its counts fit the bytes they are written in;
and whatever decodes is the encoding of the value it decodes to. -/
theorem item_codecs_inverse [Bijou64Codec] [LawfulBijou64] :
    (∀ (commit : LooseCommit) (rest : List UInt8),
      LooseCommit.tryDecodeFields (EncodeFields.encodeFields commit ++ rest) =
        .ok (commit, commit.fieldsSize) ↔ commit.parents.card ≤ 255) ∧
    (∀ (fragment : Fragment) (rest : List UInt8),
      Fragment.tryDecodeFields (EncodeFields.encodeFields fragment ++ rest) =
        .ok (fragment, fragment.fieldsSize) ↔
          fragment.boundary.card ≤ 255 ∧ fragment.checkpoints.card ≤ 65535) ∧
    (∀ (bytes : List UInt8) (commit : LooseCommit) (size : Nat),
      LooseCommit.tryDecodeFields bytes = .ok (commit, size) →
        size ≤ bytes.length ∧ EncodeFields.encodeFields commit = bytes.take size) ∧
    ∀ (bytes : List UInt8) (fragment : Fragment) (size : Nat),
      Fragment.tryDecodeFields bytes = .ok (fragment, size) →
        size ≤ bytes.length ∧ EncodeFields.encodeFields fragment = bytes.take size := by
  refine ⟨fun commit rest => ?_, fun fragment rest => ?_, fun bytes commit size decoded => ?_,
    fun bytes fragment size decoded => ?_⟩
  · simp [LooseCommit.tryDecodeFields_eq_ok, LooseCommit.CountsFit, Nat.lt_succ_iff]
  · simp [Fragment.tryDecodeFields_eq_ok, Fragment.CountsFit, Nat.lt_succ_iff]
  · obtain ⟨_, stands, rfl⟩ := LooseCommit.tryDecodeFields_eq_ok.mp decoded
    rw [← LooseCommit.length_encodeFields]
    exact ⟨stands.length_le, List.prefix_iff_eq_take.mp stands⟩
  · obtain ⟨_, stands, rfl⟩ := Fragment.tryDecodeFields_eq_ok.mp decoded
    rw [← Fragment.length_encodeFields]
    exact ⟨stands.length_le, List.prefix_iff_eq_take.mp stands⟩

def commitWithParents (count : Nat) : LooseCommit :=
  ⟨⟨1⟩, .numbered 0, (Finset.range count).image fun n => .numbered (n + 1), ⟨⟨0⟩, 0⟩⟩

theorem item_codecs_inverse_eightBytes : letI := eightBytes
    LooseCommit.tryDecodeFields (EncodeFields.encodeFields (commitWithParents 2) ++ [7]) =
      .ok (commitWithParents 2, (commitWithParents 2).fieldsSize) := by
  let _ := eightBytes
  let _ := eightBytes_lawful
  exact (item_codecs_inverse.1 (commitWithParents 2) [7]).mpr (by decide +kernel)

theorem card_commitWithParents {count : Nat} (small : count < 2 ^ 64) :
    (commitWithParents count).parents.card = count := by
  show ((Finset.range count).image fun n => CommitId.numbered (n + 1)).card = count
  rw [Finset.card_image_of_injOn, Finset.card_range]
  intro first firstIn second secondIn same
  have numbers := congrArg (fun id => id.bytes.toNat) same
  simp only [Finset.coe_range, Set.mem_Iio, CommitId.numbered, BitVec.toNat_ofNat] at *
  omega

/-- With 256 parents the count is written as zero: the commit decodes to one without parents. -/
theorem commit_of_256_parents_decodes_without : letI := eightBytes
    LooseCommit.tryDecodeFields (EncodeFields.encodeFields (commitWithParents 256)) =
      .ok (commitWithParents 0, 105) ∧ commitWithParents 0 ≠ commitWithParents 256 := by
  let _ := eightBytes
  let _ := eightBytes_lawful
  refine ⟨LooseCommit.tryDecodeFields_eq_ok.mpr ⟨by decide, ?_, by decide⟩, fun same => ?_⟩
  · have count : [UInt8.ofNat (commitWithParents 256).parents.card] = [(0 : UInt8)] := by
      rw [card_commitWithParents (by decide)]
      rfl
    refine ⟨(ascendingList (commitWithParents 256).parents).flatMap CommitId.asBytes, ?_⟩
    simp only [EncodeFields.encodeFields, count]
    rfl
  · have cards := congrArg (fun commit => commit.parents.card) same
    simp only [card_commitWithParents (by decide : 0 < 2 ^ 64),
      card_commitWithParents (by decide : 256 < 2 ^ 64)] at cards
    exact nomatch cards

end Subduction
