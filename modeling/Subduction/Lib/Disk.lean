/-
**A file system that a crash may set back.**

A directory entry is visible as soon as it is made, but a crash keeps it only once its directory has been
synced; until then the crash may bring back any entry that stood there since the last sync, or none. The
contents of a file survive only if they were synced. A path that loses one of its directories is lost.

* **`FileOp.grows`**, **`FileOp.fitting`** — no operation loosens or removes an entry.
* **`Firm.crash`**.
-/

import Subduction.Lib.FinMap

set_option linter.unusedSectionVars false

namespace Subduction

open Option

/-! ### Directories -/

/-- What a name in a directory leads to. -/
inductive DirEntry (B : Type) where
  | dir
  | file (data : B) (synced : Bool)
deriving DecidableEq

def DirEntry.isDir {B : Type} : DirEntry B → Bool
  | dir => true
  | file _ _ => false

/-- **A link**: the entry that is visible, and the ones (or their absence) that a crash may bring back. -/
structure Link (B : Type) where
  now : DirEntry B
  earlier : List (Option (DirEntry B))
deriving DecidableEq

/-- A new entry in the place of the old link, if there is one. -/
def Link.renew {B : Type} (entry : DirEntry B) : Option (Link B) → Link B
  | none => ⟨entry, [none]⟩
  | some link => ⟨entry, some link.now :: link.earlier⟩

@[simp] theorem Link.renew_now {B : Type} (entry : DirEntry B) (old : Option (Link B)) :
    (Link.renew entry old).now = entry := by
  cases old <;> rfl

/-- **A file system.** A path lists its names from the innermost one; the root directory is `[]`. -/
structure Disk (N B : Type) where
  links : FinMap (List N) (Link B)

/-- What a crash leaves: which of its entries each link has, and what is in the files that were not
synced. -/
structure Crash (N B : Type) where
  choice : List N → Nat
  spoiled : List N → B

namespace Disk

variable {N B : Type} [DecidableEq N]

def empty : Disk N B := ⟨∅⟩

/-- What is visible at a path. -/
def at? (disk : Disk N B) : List N → Option (DirEntry B)
  | [] => some .dir
  | name :: dir => (disk.links.get? (name :: dir)).map Link.now

def isDir (disk : Disk N B) (path : List N) : Bool := (disk.at? path).any DirEntry.isDir

/-- A new entry, or one that replaces what was there. -/
def put (disk : Disk N B) (path : List N) (entry : DirEntry B) : Disk N B where
  links := disk.links.insert path (Link.renew entry (disk.links.get? path))

/-- The entries of the directory are synced. -/
def flush (disk : Disk N B) (dir : List N) : Disk N B where
  links := disk.links.filterMapKeyed fun path link =>
    some (if path.tail? = some dir then ⟨link.now, []⟩ else link)

/-- The entry that the crash leaves of a link. -/
def survivor (disk : Disk N B) (crash : Crash N B) (path : List N) : Option (DirEntry B) :=
  match disk.links.get? path with
  | none => none
  | some link =>
    match link.earlier[crash.choice path]?.getD (some link.now) with
    | none => none
    | some (.file _ false) => some (.file (crash.spoiled path) true)
    | some entry => some entry

/-- The crash leaves the path with all its directories. -/
def reaches (disk : Disk N B) (crash : Crash N B) : List N → Bool
  | [] => true
  | name :: dir => (disk.survivor crash (name :: dir)).isSome && disk.reaches crash dir

/-- **The file system after a crash.** -/
def crash (disk : Disk N B) (crash : Crash N B) : Disk N B where
  links := disk.links.filterMapKeyed fun path _ =>
    if disk.reaches crash path then (disk.survivor crash path).map fun entry => ⟨entry, []⟩ else none

/-! ### Entries that a crash keeps -/

/-- A crash keeps some entry under this name. -/
def Anchored (disk : Disk N B) (path : List N) : Prop :=
  ∃ link, disk.links.get? path = some link ∧ none ∉ link.earlier

/-- **No crash can remove the path.** -/
def Firm (disk : Disk N B) : List N → Prop
  | [] => True
  | name :: dir => disk.Anchored (name :: dir) ∧ disk.Firm dir

instance (disk : Disk N B) (path : List N) : Decidable (disk.Anchored path) :=
  decidable_of_iff (∃ link ∈ disk.links.get? path, (link.earlier.all Option.isSome) = true) <| by
    unfold Anchored
    refine exists_congr fun link => and_congr_right fun _ => ?_
    rw [List.all_eq_true]
    constructor
    · intro each gone
      exact absurd (each none gone) (by simp)
    · intro held entry member
      cases entry with
      | none => exact absurd member held
      | some entry => rfl

instance Firm.decidable (disk : Disk N B) : ∀ path, Decidable (disk.Firm path)
  | [] => isTrue trivial
  | name :: dir =>
    have := Firm.decidable disk dir
    inferInstanceAs (Decidable (disk.Anchored (name :: dir) ∧ disk.Firm dir))

/-- All entries, the visible ones and those that a crash may bring back, are of the kind allowed at
their path. -/
def Fitting (fits : List N → DirEntry B → Prop) (disk : Disk N B) : Prop :=
  ∀ path link, disk.links.get? path = some link →
    fits path link.now ∧ ∀ entry, some entry ∈ link.earlier → fits path entry

/-- **One file system grows into another**: what is firm stays firm, and what is visible stays so. -/
structure Grows (disk later : Disk N B) : Prop where
  anchored : ∀ path, disk.Anchored path → later.Anchored path
  stays : ∀ path, (disk.at? path).isSome → (later.at? path).isSome

section Facts

variable {disk later : Disk N B} {path dir : List N} {name : N} {entry : DirEntry B} {broken : Crash N B}

theorem Grows.refl (disk : Disk N B) : Grows disk disk := ⟨fun _ => id, fun _ => id⟩

theorem Grows.trans {third : Disk N B} (first : Grows disk later) (second : Grows later third) :
    Grows disk third :=
  ⟨fun path held => second.anchored path (first.anchored path held),
    fun path seen => second.stays path (first.stays path seen)⟩

theorem Firm.grows (firm : disk.Firm path) (grows : Grows disk later) : later.Firm path := by
  induction path with
  | nil => trivial
  | cons name dir ih => exact ⟨grows.anchored _ firm.1, ih firm.2⟩

theorem at?_cons (disk : Disk N B) (name : N) (dir : List N) :
    disk.at? (name :: dir) = (disk.links.get? (name :: dir)).map Link.now := rfl

theorem isSome_at? : (disk.at? (name :: dir)).isSome ↔ ∃ link, disk.links.get? (name :: dir) = some link := by
  rw [at?_cons, isSome_map, isSome_iff_exists]

theorem Anchored.isSome_at? (anchored : disk.Anchored (name :: dir)) : (disk.at? (name :: dir)).isSome := by
  obtain ⟨link, found, _⟩ := anchored
  exact Disk.isSome_at?.mpr ⟨link, found⟩

theorem Firm.isSome_at? (firm : disk.Firm path) : (disk.at? path).isSome := by
  cases path with
  | nil => rfl
  | cons name dir => exact firm.1.isSome_at?

variable {fits : List N → DirEntry B → Prop}

theorem Fitting.at? (fitting : disk.Fitting fits)
    (found : disk.at? (name :: dir) = some entry) : fits (name :: dir) entry := by
  obtain ⟨link, stored, rfl⟩ := map_eq_some_iff.mp found
  exact (fitting _ link stored).1

/-! ### New entries -/

theorem at?_put (disk : Disk N B) (path : List N) (entry : DirEntry B) (name : N) (dir : List N) :
    (disk.put path entry).at? (name :: dir) =
      if name :: dir = path then some entry else disk.at? (name :: dir) := by
  rw [at?_cons, at?_cons, put, FinMap.get?_insert]
  by_cases same : name :: dir = path
  · rw [if_pos same, if_pos same, map_some, Link.renew_now]
  · rw [if_neg same, if_neg same]

theorem grows_put (disk : Disk N B) (path : List N) (entry : DirEntry B) : Grows disk (disk.put path entry) := by
  constructor
  · rintro other ⟨link, found, held⟩
    unfold Anchored put
    simp only [FinMap.get?_insert]
    by_cases same : other = path
    · subst same
      rw [if_pos rfl, found]
      exact ⟨_, rfl, by simpa [Link.renew] using held⟩
    · rw [if_neg same]
      exact ⟨link, found, held⟩
  · intro other seen
    cases other with
    | nil => rfl
    | cons name dir =>
      rw [at?_put]
      split
      · rfl
      · exact seen

theorem Fitting.put (fitting : disk.Fitting fits)
    (fit : fits path entry) : (disk.put path entry).Fitting fits := by
  intro other link found
  unfold Disk.put at found
  rcases FinMap.of_get?_insert found with ⟨rfl, rfl⟩ | ⟨-, older⟩
  · cases stored : disk.links.get? other with
    | none => exact ⟨fit, fun earlier member => by simp [Link.renew] at member⟩
    | some old =>
      refine ⟨fit, fun earlier member => ?_⟩
      rcases List.mem_cons.mp member with same | older
      · obtain rfl := Option.some.inj same
        exact (fitting other old stored).1
      · exact (fitting other old stored).2 earlier older
  · exact fitting other link older

/-! ### Synced directories -/

theorem get?_flush (disk : Disk N B) (dir path : List N) : (disk.flush dir).links.get? path =
    (disk.links.get? path).map fun link => if path.tail? = some dir then ⟨link.now, []⟩ else link := by
  unfold flush
  rw [FinMap.get?_filterMapKeyed]
  cases disk.links.get? path <;> rfl

@[simp] theorem at?_flush (disk : Disk N B) (dir path : List N) : (disk.flush dir).at? path = disk.at? path := by
  cases path with
  | nil => rfl
  | cons name outer =>
    rw [at?_cons, at?_cons, get?_flush, map_map]
    refine congrFun (congrArg Option.map (funext fun link => ?_)) _
    rw [Function.comp_apply]
    split <;> rfl

theorem grows_flush (disk : Disk N B) (dir : List N) : Grows disk (disk.flush dir) := by
  constructor
  · rintro path ⟨link, found, held⟩
    unfold Anchored
    simp only [get?_flush, found, map_some]
    refine ⟨_, rfl, ?_⟩
    split
    · simp
    · exact held
  · intro path seen
    rw [at?_flush]
    exact seen

theorem anchored_flush (seen : (disk.at? (name :: dir)).isSome) :
    (disk.flush dir).Anchored (name :: dir) := by
  obtain ⟨link, found⟩ := isSome_at?.mp seen
  unfold Anchored
  simp only [get?_flush, found, map_some]
  exact ⟨_, rfl, by simp⟩

theorem Fitting.flush (fitting : disk.Fitting fits) (dir : List N) :
    (disk.flush dir).Fitting fits := by
  intro path link found
  rw [get?_flush] at found
  obtain ⟨old, stored, rfl⟩ := map_eq_some_iff.mp found
  split
  · exact ⟨(fitting path old stored).1, fun entry member => by simp at member⟩
  · exact fitting path old stored

/-! ### Crashes -/

theorem get?_crash (disk : Disk N B) (broken : Crash N B) (path : List N) :
    (disk.crash broken).links.get? path = if disk.reaches broken path then
      (disk.survivor broken path).map fun entry => ⟨entry, []⟩ else none := by
  unfold crash
  rw [FinMap.get?_filterMapKeyed]
  cases stored : disk.links.get? path with
  | none => simp [survivor, stored]
  | some link => rfl

theorem isSome_survivor (anchored : disk.Anchored path) (broken : Crash N B) :
    (disk.survivor broken path).isSome := by
  obtain ⟨link, found, held⟩ := anchored
  unfold survivor
  rw [found]
  dsimp only
  have some : link.earlier[broken.choice path]?.getD (some link.now) ≠ none := by
    cases chosen : link.earlier[broken.choice path]? with
    | none => exact some_ne_none _
    | some entry =>
      intro gone
      rw [getD_some] at gone
      exact held (gone ▸ List.mem_of_getElem? chosen)
  split
  · exact absurd ‹_› some
  · rfl
  · rfl

theorem Firm.reaches (firm : disk.Firm path) : disk.reaches broken path = true := by
  induction path with
  | nil => rfl
  | cons name dir ih =>
    show (_ && _) = true
    rw [isSome_survivor firm.1 broken, ih firm.2]
    rfl

/-- What the crash leaves of a link was visible, or stood there earlier. -/
theorem survivor_fits (fitting : disk.Fitting fits)
    (synced : ∀ data, ¬ fits path (.file data false)) (left : disk.survivor broken path = some entry) :
    fits path entry := by
  unfold survivor at left
  cases found : disk.links.get? path with
  | none =>
    rw [found] at left
    cases left
  | some link =>
    rw [found] at left
    dsimp only at left
    have fit : ∀ kept, link.earlier[broken.choice path]?.getD (some link.now) = some kept →
        fits path kept := by
      intro kept isKept
      cases chosen : link.earlier[broken.choice path]? with
      | none =>
        rw [chosen, getD_none] at isKept
        obtain rfl := Option.some.inj isKept
        exact (fitting path link found).1
      | some earlier =>
        rw [chosen, getD_some] at isKept
        exact (fitting path link found).2 kept (isKept ▸ List.mem_of_getElem? chosen)
    split at left
    · cases left
    · rename_i data isKept
      exact absurd (fit _ isKept) (synced data)
    · rename_i kept _ isKept
      obtain rfl := Option.some.inj left
      exact fit _ isKept

theorem anchored_of_reaches (reached : disk.reaches broken (name :: dir) = true) :
    (disk.crash broken).Anchored (name :: dir) := by
  obtain ⟨entry, left⟩ := isSome_iff_exists.mp (Bool.and_eq_true_iff.mp reached).1
  unfold Anchored
  simp only [get?_crash, reached, if_true, left, map_some]
  exact ⟨_, rfl, List.not_mem_nil⟩

theorem firm_of_reaches (reached : disk.reaches broken path = true) : (disk.crash broken).Firm path := by
  induction path with
  | nil => trivial
  | cons name dir ih =>
    exact ⟨anchored_of_reaches reached, ih (Bool.and_eq_true_iff.mp reached).2⟩

theorem Firm.crash (firm : disk.Firm path) (broken : Crash N B) : (disk.crash broken).Firm path :=
  firm_of_reaches firm.reaches

theorem Fitting.crash (fitting : disk.Fitting fits)
    (synced : ∀ path data, ¬ fits path (.file data false)) (broken : Crash N B) :
    (disk.crash broken).Fitting fits := by
  intro path link found
  rw [get?_crash] at found
  split at found
  · obtain ⟨entry, left, rfl⟩ := map_eq_some_iff.mp found
    exact ⟨survivor_fits fitting (synced path) left, fun earlier member => by simp at member⟩
  · cases found

end Facts

end Disk

/-! ### Operations -/

/-- A temporary file, which nobody else knows: its contents, and whether they were synced. -/
structure TempFile (B : Type) where
  data : B
  synced : Bool
deriving DecidableEq

/-- The outcome of making one directory. -/
inductive MkdirResult where
  | ok
  | noParent
  | error
deriving DecidableEq

def MkdirResult.isOk : MkdirResult → Bool
  | ok => true
  | _ => false

theorem MkdirResult.isOk_iff {result : MkdirResult} : result.isOk = true ↔ result = .ok := by
  cases result <;> simp [isOk]

/-- **The operations of a program on the file system.** -/
inductive FileOp (N B : Type) where
  | stat (path : List N)
  | mkdir (path : List N)
  | write (data : B)
  | sync (temp : TempFile B)
  | rename (temp : TempFile B) (path : List N)
  | fsyncDir (dir : List N)

namespace FileOp

variable {N B : Type} [DecidableEq N]

/-- What the program learns. -/
def Answer : FileOp N B → Type
  | .stat _ => Option (DirEntry B)
  | .mkdir _ => MkdirResult
  | .write _ => Option (TempFile B)
  | .sync _ => Option (TempFile B)
  | .rename _ _ => Bool
  | .fsyncDir _ => Bool

/-- One operation; it may fail with an error of the file system. -/
def perform (failing : Bool) (disk : Disk N B) : (op : FileOp N B) → op.Answer × Disk N B
  | .stat path => (if failing then none else disk.at? path, disk)
  | .mkdir path =>
    if failing then (MkdirResult.error, disk)
    else
      match disk.at? path with
      | some .dir => (MkdirResult.ok, disk)
      | some (.file _ _) => (MkdirResult.error, disk)
      | none =>
        if disk.isDir path.tail then (MkdirResult.ok, disk.put path .dir)
        else (MkdirResult.noParent, disk)
  | .write data => (if failing then none else some ⟨data, false⟩, disk)
  | .sync temp => (if failing then none else some { temp with synced := true }, disk)
  | .rename temp path =>
    if failing = false ∧ disk.isDir path.tail = true ∧ disk.isDir path = false then
      (true, disk.put path (.file temp.data temp.synced))
    else (false, disk)
  | .fsyncDir dir =>
    if failing = false ∧ (disk.at? dir).isSome then (true, disk.flush dir) else (false, disk)

/-- What the program finds in place. -/
def finds (failing : Bool) (disk : Disk N B) : FileOp N B → Option (List N)
  | .stat path => if failing = false ∧ (disk.at? path).isSome then some path else none
  | _ => none

/-- What an operation may put in place. -/
def Puts (fits : List N → DirEntry B → Prop) : FileOp N B → Prop
  | .mkdir path => fits path .dir
  | .rename temp path => fits path (.file temp.data temp.synced)
  | _ => True

theorem perform_cases (op : FileOp N B) (failing : Bool) (disk : Disk N B) :
    (op.perform failing disk).2 = disk ∨
    (∃ path, op = .mkdir path ∧ disk.isDir path.tail = true ∧
      (op.perform failing disk).2 = disk.put path .dir) ∨
    (∃ temp path, op = .rename temp path ∧ disk.isDir path.tail = true ∧
      (op.perform failing disk).2 = disk.put path (.file temp.data temp.synced)) ∨
    ∃ dir, op = .fsyncDir dir ∧ (op.perform failing disk).2 = disk.flush dir := by
  cases op with
  | stat path => exact Or.inl rfl
  | write data => exact Or.inl rfl
  | sync temp => exact Or.inl rfl
  | mkdir path =>
    unfold perform
    dsimp only
    split
    · exact Or.inl rfl
    · split
      · exact Or.inl rfl
      · exact Or.inl rfl
      · split
        · exact Or.inr (Or.inl ⟨path, rfl, ‹_›, rfl⟩)
        · exact Or.inl rfl
  | rename temp path =>
    unfold perform
    dsimp only
    split
    · rename_i works
      exact Or.inr (Or.inr (Or.inl ⟨temp, path, rfl, works.2.1, rfl⟩))
    · exact Or.inl rfl
  | fsyncDir dir =>
    unfold perform
    dsimp only
    split
    · exact Or.inr (Or.inr (Or.inr ⟨dir, rfl, rfl⟩))
    · exact Or.inl rfl

variable {disk : Disk N B} {failing : Bool}

theorem grows (op : FileOp N B) (failing : Bool) (disk : Disk N B) :
    Disk.Grows disk (op.perform failing disk).2 := by
  rcases op.perform_cases failing disk with same | ⟨path, _, _, result⟩ | ⟨temp, path, _, _, result⟩ |
    ⟨dir, _, result⟩
  · rw [same]
    exact Disk.Grows.refl disk
  · rw [result]
    exact disk.grows_put path .dir
  · rw [result]
    exact disk.grows_put path _
  · rw [result]
    exact disk.grows_flush dir

theorem fitting {fits : List N → DirEntry B → Prop} {op : FileOp N B} (fitting : disk.Fitting fits)
    (puts : op.Puts fits) : (op.perform failing disk).2.Fitting fits := by
  rcases op.perform_cases failing disk with same | ⟨path, rfl, _, result⟩ |
    ⟨temp, path, rfl, _, result⟩ | ⟨dir, rfl, result⟩
  · rw [same]
    exact fitting
  · rw [result]
    exact fitting.put puts
  · rw [result]
    exact fitting.put puts
  · rw [result]
    exact fitting.flush dir

theorem finds_stat {path : List N} {entry : DirEntry B}
    (found : ((FileOp.stat path).perform failing disk).1 = some entry) :
    path ∈ (FileOp.stat path).finds failing disk := by
  cases failing with
  | true => cases found
  | false => exact if_pos ⟨rfl, isSome_iff_exists.mpr ⟨entry, found⟩⟩

theorem isSome_of_mkdir {path : List N} (made : ((FileOp.mkdir path).perform failing disk).1 = .ok) :
    (((FileOp.mkdir path).perform failing disk).2.at? path).isSome := by
  cases path with
  | nil => rfl
  | cons name dir =>
    unfold perform at made ⊢
    dsimp only at made ⊢
    split at made
    · cases made
    · rename_i works
      rw [if_neg works]
      split at made
      · rename_i found
        rw [found]
        rfl
      · cases made
      · rename_i absent
        split at made
        · rename_i parent
          rw [if_pos parent, Disk.at?_put, if_pos rfl]
          rfl
        · cases made

theorem isSome_of_rename {temp : TempFile B} {name : N} {dir : List N}
    (renamed : ((FileOp.rename temp (name :: dir)).perform failing disk).1 = true) :
    (((FileOp.rename temp (name :: dir)).perform failing disk).2.at? (name :: dir)).isSome := by
  unfold perform at renamed ⊢
  dsimp only at renamed ⊢
  split at renamed
  · rename_i works
    rw [if_pos works, Disk.at?_put, if_pos rfl]
    rfl
  · cases renamed

theorem anchored_of_fsyncDir {name : N} {dir : List N} (seen : (disk.at? (name :: dir)).isSome)
    (synced : ((FileOp.fsyncDir dir : FileOp N B).perform failing disk).1 = true) :
    ((FileOp.fsyncDir dir : FileOp N B).perform failing disk).2.Anchored (name :: dir) := by
  unfold perform at synced ⊢
  dsimp only at synced ⊢
  split at synced
  · rename_i works
    rw [if_pos works]
    exact Disk.anchored_flush seen
  · cases synced

end FileOp

end Subduction
