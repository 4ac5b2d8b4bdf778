/-
**Reading the directory of an identity.**

The file system storage keeps an item as a pair of files, the signed bytes and the blob, in the directory
of its identity. The point read takes the first complete pair in the order in which the directory is
listed, the bulk reads take the one with the lowest name; both choose before anything is decoded.

Main result: `IdentityDir.agree_iff`.
-/

import Subduction.Storage.Trusted

set_option linter.unusedSectionVars false

namespace Subduction

open Option

/-- A name in the directory: a `.meta` file, a `.blob` file, or anything else. -/
inductive DirName (S : Type) where
  | signed (stem : S)
  | blob (stem : S)
  | other (name : String)
deriving DecidableEq

/-- `strip_suffix(".meta")`. -/
def DirName.stem? {S : Type} : DirName S → Option S
  | signed stem => some stem
  | _ => none

/-- **The directory of an identity**, with its names as they are listed. -/
structure IdentityDir (S : Type) where
  read : DirName S → Option (List UInt8)
  names : List (DirName S)
  mem_names : ∀ name, name ∈ names ↔ (read name).isSome

namespace IdentityDir

variable {S : Type} [LinearOrder S]

section

variable (dir : IdentityDir S)

def pair (stem : S) : Option (List UInt8 × List UInt8) :=
  (dir.read (.signed stem)).bind fun signed => (dir.read (.blob stem)).map fun blob => (signed, blob)

/-- `complete_pair_stems_sorted`. -/
def completeStems : List S :=
  ascendingList ((dir.names.filterMap DirName.stem?).toFinset.filter fun stem => .blob stem ∈ dir.names)

/-- `read_first_meta_blob_pair_sync`. -/
def readFirstPairSync : Option (List UInt8 × List UInt8) :=
  dir.completeStems.findSome? dir.pair

/-- `read_first_meta_only_sync`. -/
def readFirstSignedSync : Option (List UInt8) :=
  dir.completeStems.findSome? fun stem => dir.read (.signed stem)

/-- `FsStorage::read_first_meta_blob_pair`. -/
def readFirstPair : Option (List UInt8 × List UInt8) :=
  dir.names.findSome? fun name => name.stem?.bind dir.pair

def Complete (stem : S) : Prop := (dir.pair stem).isSome

/-- **The complete pair that is listed first.** -/
def Leads (stem : S) : Prop :=
  dir.Complete stem ∧ ∃ before after, dir.names = before ++ .signed stem :: after ∧
    ∀ other, .signed other ∈ before → ¬ dir.Complete other

/-- **The complete pair with the lowest name.** -/
def Lowest (stem : S) : Prop :=
  dir.Complete stem ∧ ∀ other, dir.Complete other → stem ≤ other

end

theorem mem_completeStems {dir : IdentityDir S} {stem : S} :
    stem ∈ dir.completeStems ↔ dir.Complete stem := by
  have listed : stem ∈ dir.names.filterMap DirName.stem? ↔ .signed stem ∈ dir.names := by
    rw [List.mem_filterMap]
    constructor
    · rintro ⟨name, member, isStem⟩
      cases name with
      | signed other => exact Option.some.inj isStem ▸ member
      | blob other => cases isStem
      | other name => cases isStem
    · exact fun member => ⟨_, member, rfl⟩
  rw [completeStems, mem_ascendingList, Finset.mem_filter, List.mem_toFinset, listed, dir.mem_names,
    dir.mem_names, Complete, pair]
  cases dir.read (.signed stem) <;> simp

theorem completeStems_eq_cons {dir : IdentityDir S} {stem : S} {rest : List S}
    (found : dir.completeStems = stem :: rest) : dir.Lowest stem := by
  refine ⟨mem_completeStems.mp (found ▸ List.mem_cons_self), fun other complete => ?_⟩
  have sorted : (stem :: rest).Pairwise (· < ·) := found ▸ pairwise_ascendingList _
  rcases List.mem_cons.mp (found ▸ mem_completeStems.mpr complete) with rfl | later
  · exact le_refl _
  · exact le_of_lt (List.rel_of_pairwise_cons sorted later)

theorem Lowest.completeStems_eq {dir : IdentityDir S} {stem : S} (lowest : dir.Lowest stem) :
    ∃ rest, dir.completeStems = stem :: rest := by
  cases found : dir.completeStems with
  | nil => exact absurd (found ▸ mem_completeStems.mpr lowest.1) List.not_mem_nil
  | cons first rest =>
    have least := completeStems_eq_cons found
    exact ⟨rest, by rw [le_antisymm (least.2 stem lowest.1) (lowest.2 first least.1)]⟩

theorem readFirstPairSync_eq_some {dir : IdentityDir S} {files : List UInt8 × List UInt8} :
    dir.readFirstPairSync = some files ↔ ∃ stem, dir.Lowest stem ∧ dir.pair stem = some files := by
  constructor
  · intro found
    cases stems : dir.completeStems with
    | nil => simp [readFirstPairSync, stems] at found
    | cons stem rest =>
      have lowest := completeStems_eq_cons stems
      obtain ⟨read, isRead⟩ := isSome_iff_exists.mp lowest.1
      rw [readFirstPairSync, stems, List.findSome?_cons, isRead] at found
      exact ⟨stem, lowest, isRead.trans found⟩
  · rintro ⟨stem, lowest, isPair⟩
    obtain ⟨rest, stems⟩ := lowest.completeStems_eq
    rw [readFirstPairSync, stems, List.findSome?_cons, isPair]

theorem readFirstSignedSync_eq (dir : IdentityDir S) :
    dir.readFirstSignedSync = dir.readFirstPairSync.map Prod.fst := by
  cases stems : dir.completeStems with
  | nil => simp [readFirstSignedSync, readFirstPairSync, stems]
  | cons stem rest =>
    obtain ⟨⟨signed, blob⟩, isRead⟩ := isSome_iff_exists.mp (completeStems_eq_cons stems).1
    have isSigned : dir.read (.signed stem) = some signed := by
      rw [pair, bind_eq_some_iff] at isRead
      obtain ⟨read, found, same⟩ := isRead
      obtain ⟨other, -, both⟩ := map_eq_some_iff.mp same
      rw [found, (Prod.mk.inj both).1]
    rw [readFirstSignedSync, readFirstPairSync, stems, List.findSome?_cons, List.findSome?_cons, isRead,
      isSigned]
    rfl

theorem readFirstPair_eq_some {dir : IdentityDir S} {files : List UInt8 × List UInt8} :
    dir.readFirstPair = some files ↔ ∃ stem, dir.Leads stem ∧ dir.pair stem = some files := by
  rw [readFirstPair, List.findSome?_eq_some_iff]
  constructor
  · rintro ⟨before, name, after, listed, isPair, skipped⟩
    obtain ⟨stem, isStem, isPair⟩ := bind_eq_some_iff.mp isPair
    cases name with
    | signed other =>
      obtain rfl := Option.some.inj isStem
      refine ⟨other, ⟨isSome_iff_exists.mpr ⟨_, isPair⟩, before, after, listed, ?_⟩, isPair⟩
      intro earlier member complete
      have none : dir.pair earlier = none := skipped _ member
      rw [Complete, none] at complete
      cases complete
    | blob other => cases isStem
    | other name => cases isStem
  · rintro ⟨stem, ⟨-, before, after, listed, skipped⟩, isPair⟩
    refine ⟨before, .signed stem, after, listed, isPair, fun name member => ?_⟩
    cases name with
    | signed other => exact not_isSome_iff_eq_none.mp (skipped other member)
    | blob other => rfl
    | other name => rfl

section Load

variable {α : Type} [Ed25519] [DecodeFields α]

def itemOf (files : List UInt8 × List UInt8) : Option (TrustedMeta α) := decodeVerified files.1 ⟨files.2⟩

/-- `load_loose_commit`, `load_fragment`: a pair that does not decode is an error. -/
def loadOne (dir : IdentityDir S) : Except Unit (Option (TrustedMeta α)) :=
  match dir.readFirstPair with
  | none => .ok none
  | some files =>
    match itemOf files with
    | some loaded => .ok (some loaded)
    | none => .error ()

/-- What `load_loose_commits` and `load_fragments` give for the identity. -/
def loadEntry (dir : IdentityDir S) : Option (TrustedMeta α) := dir.readFirstPairSync.bind itemOf

/-- What `load_loose_commit_metas` and `load_fragment_metas` give for the identity. -/
def loadMeta (dir : IdentityDir S) : Option α := dir.readFirstSignedSync.bind decodePayload

/-- **All three loads return an item, and it is the same one.** -/
def Agree (dir : IdentityDir S) (α : Type) [DecodeFields α] : Prop :=
  ∃ loaded : TrustedMeta α, dir.loadOne = .ok (some loaded) ∧ dir.loadEntry = some loaded ∧
    dir.loadMeta = some loaded.payload

theorem loadOne_eq_ok {dir : IdentityDir S} {loaded : TrustedMeta α} :
    dir.loadOne = .ok (some loaded) ↔ ∃ files, dir.readFirstPair = some files ∧
      itemOf files = some loaded := by
  unfold loadOne
  cases dir.readFirstPair with
  | none => simp
  | some files => cases read : itemOf (α := α) files <;> simp [read]

theorem loadMeta_eq (dir : IdentityDir S) :
    dir.loadMeta (α := α) = dir.loadEntry.map TrustedMeta.payload := by
  rw [loadMeta, loadEntry, readFirstSignedSync_eq]
  cases dir.readFirstPairSync with
  | none => rfl
  | some files => exact decodePayload_eq files.1 ⟨files.2⟩

/-- **The loads agree just when the first and the lowest complete pair decode to one item.** -/
theorem agree_iff (dir : IdentityDir S) :
    dir.Agree α ↔ ∃ (first lowest : S) (loaded : TrustedMeta α), dir.Leads first ∧ dir.Lowest lowest ∧
      (dir.pair first).bind itemOf = some loaded ∧ (dir.pair lowest).bind itemOf = some loaded := by
  constructor
  · rintro ⟨loaded, one, entry, -⟩
    obtain ⟨files, isFirst, decoded⟩ := loadOne_eq_ok.mp one
    obtain ⟨first, leads, isPair⟩ := readFirstPair_eq_some.mp isFirst
    obtain ⟨others, isLowest, same⟩ := Option.bind_eq_some_iff.mp entry
    obtain ⟨lowest, least, isOther⟩ := readFirstPairSync_eq_some.mp isLowest
    refine ⟨first, lowest, loaded, leads, least, ?_, ?_⟩
    · rw [isPair]
      exact decoded
    · rw [isOther]
      exact same
  · rintro ⟨first, lowest, loaded, leads, least, isFirst, isLowest⟩
    obtain ⟨files, isPair, decoded⟩ := Option.bind_eq_some_iff.mp isFirst
    obtain ⟨others, isOther, same⟩ := Option.bind_eq_some_iff.mp isLowest
    have entry : dir.loadEntry = some loaded := by
      rw [loadEntry, readFirstPairSync_eq_some.mpr ⟨lowest, least, isOther⟩]
      exact same
    refine ⟨loaded, loadOne_eq_ok.mpr ⟨files, readFirstPair_eq_some.mpr ⟨first, leads, isPair⟩, decoded⟩,
      entry, ?_⟩
    rw [loadMeta_eq, entry]
    rfl

end Load

end IdentityDir

/-- A damaged pair with the lower name, and a sound one. -/
def damagedDir [Bijou64] : IdentityDir Bool where
  read
    | .signed true => some sealedCommit.bytes
    | .signed false => some []
    | .blob _ => some []
    | .other _ => none
  names := [.signed false, .blob false, .signed true, .blob true]
  mem_names := by rintro (stem | stem | name) <;> first | (cases stem <;> simp) | simp

/-- **The damaged pair hides the sound one**: the point read is an error, and the bulk loads skip the
identity, although its other pair is complete and decodes. -/
theorem hidden_pair : letI := eightBytes
    letI := shownKeys
    ((damagedDir.pair true).bind (IdentityDir.itemOf (α := LooseCommit))).isSome = true ∧
      (damagedDir.loadOne (α := LooseCommit)).isOk = false ∧
      (damagedDir.loadEntry (α := LooseCommit)).isNone = true ∧
      (damagedDir.loadMeta (α := LooseCommit)).isNone = true := by
  decide +kernel

end Subduction
