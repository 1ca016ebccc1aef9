import Mathlib.Data.List.Lex
import Mathlib.Tactic

/- The directory entries of an EROFS image (`erofs.go`). `WriteImage` puts `.` and `..` before the
   children of a directory, and `BuildDirectoryData` cuts the entries into blocks. A block is the
   list of its entries here: their layout in its bytes is left out. -/
namespace InClusterStorage.Erofs

open List

abbrev Name := List UInt8

structure Dirent where
  nid : Nat
  name : Name
  fileType : UInt8
  deriving DecidableEq, Repr

/-- What `WriteImage` knows of a node. -/
structure NodeInfo where
  nid : Nat
  parentNID : Nat
  name : Name
  isDir : Bool
  mode : UInt16
  deriving DecidableEq, Repr

def NodeInfo.fileType (info : NodeInfo) : UInt8 :=
  if info.isDir then 2
  else match info.mode &&& 0o170000 with
    | 0o120000 => 7
    | 0o020000 => 3
    | 0o060000 => 4
    | 0o010000 => 5
    | 0o140000 => 6
    | _ => 1

/-- The entries of a directory with these children. -/
def NodeInfo.dirents (n : NodeInfo) (nodes : List NodeInfo) (children : List Name) : Option (List Dirent) :=
  (children.mapM fun child => (nodes.find? fun info => info.parentNID = n.nid ∧ info.name = child).map fun info =>
    ⟨info.nid, info.name, info.fileType⟩).map ([⟨n.nid, [46], 2⟩, ⟨n.parentNID, [46, 46], 2⟩] ++ ·)

section

variable (validString : Name → Bool)

def validName (name : Name) : Bool := !name.contains 0 && !name.contains 47 && name ≠ [] && validString name

def buildDirectoryBlock (size : Nat) (dirents : List Dirent) : Option (List Dirent) :=
  if dirents.all (fun de => validName validString de.name) ∧ dirents.length * 12 + (dirents.map (·.name.length)).sum ≤ size
  then some dirents else none

/-- The blocks so far, the entries of the next one, and the length of their names. -/
structure Packing where
  allBlocks : List (List Dirent) := []
  currentBlockDirents : List Dirent := []
  namesLen : Nat := 0

def Packing.add (blockSize : Nat) (s : Packing) (de : Dirent) : Option Packing :=
  if validName validString de.name = false then none
  else if (s.currentBlockDirents.length + 1) * 12 + (s.namesLen + de.name.length) > blockSize then
    if s.currentBlockDirents = [] then none
    else (buildDirectoryBlock validString blockSize s.currentBlockDirents).map fun block =>
      ⟨s.allBlocks ++ [block], [de], de.name.length⟩
  else some { s with
    currentBlockDirents := s.currentBlockDirents ++ [de]
    namesLen := s.namesLen + de.name.length }

def buildDirectoryData (blockSize : Nat) (dirents : List Dirent) : Option (List (List Dirent)) :=
  (dirents.foldlM (Packing.add validString blockSize) {}).bind fun s =>
    if s.currentBlockDirents = [] then some (if dirents = [] then [[]] else s.allBlocks)
    else (buildDirectoryBlock validString blockSize s.currentBlockDirents).map (s.allBlocks ++ [·])

end

variable {validString : Name → Bool} {blockSize : Nat}

theorem buildDirectoryBlock_eq {ds block : List Dirent} (h : buildDirectoryBlock validString blockSize ds = some block) :
    block = ds := by
  obtain ⟨-, heq⟩ := Option.ite_none_right_eq_some.mp h
  exact (Option.some.inj heq).symm

theorem Packing.add_flatten {s s' : Packing} {de : Dirent} (h : s.add validString blockSize de = some s') :
    s'.allBlocks.flatten ++ s'.currentBlockDirents = s.allBlocks.flatten ++ s.currentBlockDirents ++ [de] := by
  obtain ⟨-, h⟩ := Option.ite_none_left_eq_some.mp h
  split at h
  · obtain ⟨-, h⟩ := Option.ite_none_left_eq_some.mp h
    obtain ⟨block, hblock, rfl⟩ := Option.map_eq_some_iff.mp h
    simp [buildDirectoryBlock_eq hblock]
  · cases h
    exact (append_assoc ..).symm

theorem flatten_buildDirectoryData {ds : List Dirent} {blocks : List (List Dirent)}
    (h : buildDirectoryData validString blockSize ds = some blocks) : blocks.flatten = ds := by
  have hfold (s s' : Packing) (hs : ds.foldlM (Packing.add validString blockSize) s = some s') :
      s'.allBlocks.flatten ++ s'.currentBlockDirents = s.allBlocks.flatten ++ s.currentBlockDirents ++ ds := by
    clear h
    induction ds generalizing s with
    | nil => simp_all
    | cons de ds ih =>
      obtain ⟨s₁, hadd, hrest⟩ := Option.bind_eq_some_iff.mp hs
      rw [ih s₁ hrest, Packing.add_flatten hadd, append_assoc, singleton_append]
  obtain ⟨s, hs, h⟩ := Option.bind_eq_some_iff.mp h
  have hflat := hfold {} s hs
  split at h
  case isTrue hnil =>
    cases h
    split <;> simp_all
  case isFalse =>
    obtain ⟨block, hblock, rfl⟩ := Option.map_eq_some_iff.mp h
    simpa [buildDirectoryBlock_eq hblock] using hflat

theorem NodeInfo.names_dirents {n : NodeInfo} {nodes : List NodeInfo} {children : List Name} {ds : List Dirent}
    (h : n.dirents nodes children = some ds) : ds.map Dirent.name = [46] :: [46, 46] :: children := by
  obtain ⟨rest, hrest, rfl⟩ := Option.map_eq_some_iff.mp h
  suffices hnames : rest.map Dirent.name = children by simp [hnames]
  clear h
  induction children generalizing rest with
  | nil => simp_all
  | cons child children ih =>
    simp only [mapM_cons, Option.bind_eq_bind, Option.bind_eq_some_iff, Option.map_eq_some_iff, Option.pure_def,
      Option.some.injEq] at hrest
    obtain ⟨_, ⟨info, hfind, rfl⟩, tail, htail, rfl⟩ := hrest
    have hname := find?_some hfind
    simp_all

/-- **Order of the entries.** The names of a directory with sorted children are strictly increasing
over all its blocks exactly if every child's name comes after `..`. -/
theorem names_sorted_iff {n : NodeInfo} {nodes : List NodeInfo} {children : List Name} {ds : List Dirent}
    {blocks : List (List Dirent)} (hsorted : children.Pairwise (· < ·)) (hds : n.dirents nodes children = some ds)
    (hblocks : buildDirectoryData validString blockSize ds = some blocks) :
    (blocks.flatten.map Dirent.name).Pairwise (· < ·) ↔ ∀ child ∈ children, [46, 46] < child := by
  rw [flatten_buildDirectoryData hblocks, NodeInfo.names_dirents hds]
  have hdots : ([46] : Name) < [46, 46] := by decide
  simp only [pairwise_cons, forall_mem_cons, hsorted, and_true, hdots, true_and]
  exact ⟨fun h => h.2, fun h => ⟨fun child hc => List.lt_trans hdots (h child hc), h⟩⟩

theorem names_sorted_letter :
    ∃ blocks, buildDirectoryData (fun _ => true) 4096 [⟨36, [46], 2⟩, ⟨36, [46, 46], 2⟩, ⟨40, [97], 1⟩] = some blocks ∧
      (blocks.flatten.map Dirent.name).Pairwise (· < ·) :=
  ⟨_, rfl, (@names_sorted_iff (fun _ => true) 4096 ⟨36, 36, [], true, 0⟩ [⟨40, 36, [97], false, 0⟩] [[97]] _ _
    (by decide) rfl rfl).mpr (by decide)⟩

/-- A child named `!`. -/
theorem names_unsorted :
    ((NodeInfo.dirents ⟨36, 36, [], true, 0⟩ [⟨40, 36, [33], false, 0⟩] [[33]]).bind
      (buildDirectoryData (fun _ => true) 4096)).map (fun blocks => blocks.flatten.map Dirent.name) =
        some [[46], [46, 46], [33]] ∧ ¬ Pairwise (· < ·) [[46], [46, 46], ([33] : Name)] := by
  decide

end InClusterStorage.Erofs
