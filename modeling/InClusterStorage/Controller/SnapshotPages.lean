import InClusterStorage.Controller.Recovery

/- The pages of `ListSnapshots` (`service.go`).

   The volume lists the snapshots by position, and a page goes on after `from_snapshot` by the order
   of the names: it skips what has a name or a location up to it. The two orders have to agree. -/
namespace InClusterStorage.Controller

open List

/-- The name a page shows; a pointer may lack one. -/
def SnapshotPointer.shownName (ptr : SnapshotPointer) : Name :=
  if ptr.name = [] then snapshotBase ptr.location else ptr.name

/-- The pointer is not skipped; an empty `from_snapshot` skips nothing. -/
def SnapshotPointer.after (streamID fromSnapshot : Name) (ptr : SnapshotPointer) : Bool :=
  fromSnapshot = [] || fromSnapshot < ptr.shownName && fromSnapshot < snapshotKey streamID ptr.location

/-- One call: the page, and whether it is the last one. -/
def snapshotPage (streamID : Name) (limit : Nat) (all : List SnapshotPointer) (fromSnapshot : Name) :
    List SnapshotPointer × Bool :=
  let snapInfos := all.filter (·.after streamID fromSnapshot)
  if 0 < limit ∧ limit < snapInfos.length then (snapInfos.take limit, false) else (snapInfos, true)

/-- Call after call, each from the last name of the page before, to the end of the data. -/
def snapshotPages (streamID : Name) (limit : Nat) (all : List SnapshotPointer) :
    Nat → Name → Option (List SnapshotPointer)
  | 0, _ => none
  | calls + 1, fromSnapshot =>
    let page := snapshotPage streamID limit all fromSnapshot
    if page.2 then some page.1
    else
      (snapshotPages streamID limit all calls ((page.1.getLast?.map (·.shownName)).getD [])).map (page.1 ++ ·)

/-- The later of two pointers passes the filter that the earlier one sets. -/
def NamedAfter (streamID : Name) (p q : SnapshotPointer) : Prop := q.after streamID p.shownName = true

section

variable {streamID : Name} {p q : SnapshotPointer}

theorem SnapshotPointer.shownName_ne_nil (p : SnapshotPointer) : p.shownName ≠ [] := by
  unfold shownName
  split
  · simp [snapshotBase]
  · assumption

theorem namedAfter_iff :
    NamedAfter streamID p q ↔ p.shownName < q.shownName ∧ p.shownName < snapshotKey streamID q.location := by
  simp [NamedAfter, SnapshotPointer.after, p.shownName_ne_nil]

theorem not_namedAfter_self : ¬ NamedAfter streamID p p :=
  fun h => List.lt_irrefl _ (namedAfter_iff.mp h).1

/-- What passes the filter of a later name passes that of an earlier one. -/
theorem SnapshotPointer.after_of_namedAfter {fromSnapshot : Name} (hp : p.after streamID fromSnapshot = true)
    (h : NamedAfter streamID p q) : q.after streamID fromSnapshot = true := by
  obtain ⟨hname, hkey⟩ := namedAfter_iff.mp h
  simp only [after, Bool.or_eq_true, Bool.and_eq_true, decide_eq_true_eq] at hp ⊢
  obtain hnil | ⟨hlt, -⟩ := hp
  · exact .inl hnil
  · exact .inr ⟨List.lt_trans hlt hname, List.lt_trans hlt hkey⟩

variable {all : List SnapshotPointer}

/-- Behind a part of the list in order, the filter leaves the rest of the list. -/
theorem filter_after_last {front rest : List SnapshotPointer} (h : (front ++ p :: rest).Pairwise (NamedAfter streamID)) :
    (front ++ p :: rest).filter (·.after streamID p.shownName) = rest := by
  obtain ⟨-, hrest, hfront⟩ := pairwise_append.mp h
  have hnone : front.filter (·.after streamID p.shownName) = [] := by
    refine filter_eq_nil_iff.mpr fun q hq hafter => ?_
    have hlt := (namedAfter_iff.mp (hfront q hq p mem_cons_self)).1
    exact List.lt_irrefl _ (List.lt_trans hlt (namedAfter_iff.mp hafter).1)
  have hall : rest.filter (·.after streamID p.shownName) = rest :=
    filter_eq_self.mpr fun _ hq => rel_of_pairwise_cons hrest hq
  rw [filter_append, hnone, filter_cons_of_neg not_namedAfter_self, hall, nil_append]

/-- In a list in order, the pages go on where they stopped. -/
theorem snapshotPages_rest {limit : Nat} (hlimit : 0 < limit) (h : all.Pairwise (NamedAfter streamID)) (calls : Nat) :
    ∀ front rest fromSnapshot, all = front ++ rest → rest.length < calls →
      all.filter (·.after streamID fromSnapshot) = rest →
        snapshotPages streamID limit all calls fromSnapshot = some rest := by
  induction calls with
  | zero => exact fun _ _ _ _ hlen => absurd hlen (Nat.not_lt_zero _)
  | succ calls ih =>
    intro front rest fromSnapshot hall hlen hfilter
    unfold snapshotPages snapshotPage
    simp only [hfilter, hlimit, true_and]
    by_cases hmore : limit < rest.length
    · simp only [hmore, if_true, Bool.false_eq_true, if_false]
      -- the page is not empty; its last pointer sets the next filter
      obtain ⟨page, p, hpage⟩ : ∃ page p, rest.take limit = page ++ [p] :=
        eq_nil_or_concat' (rest.take limit) |>.resolve_left fun hnil => by
          have := congrArg length hnil
          rw [length_take, length_nil] at this
          omega
      have hrest : page ++ [p] ++ rest.drop limit = rest := by rw [← hpage, take_append_drop]
      have hsplit : all = front ++ page ++ p :: rest.drop limit :=
        calc all = front ++ (page ++ [p] ++ rest.drop limit) := by rw [hrest, hall]
          _ = front ++ page ++ p :: rest.drop limit := by simp
      have hnext := ih (front ++ page ++ [p]) (rest.drop limit) p.shownName (by rw [hsplit]; simp)
        (by rw [length_drop]; omega) (by rw [hsplit] at h ⊢; exact filter_after_last h)
      rw [hpage, getLast?_concat, Option.map_some, Option.getD_some, hnext, Option.map_some, hrest]
    · simp [hmore]

/-- Pages of one pointer come in the order of the list, each named after the ones before it. -/
theorem snapshotPages_one {calls : Nat} {fromSnapshot : Name} {result : List SnapshotPointer}
    (h : snapshotPages streamID 1 all calls fromSnapshot = some result) :
    result.Sublist (all.filter (·.after streamID fromSnapshot)) ∧ result.Pairwise (NamedAfter streamID) := by
  induction calls generalizing fromSnapshot result with
  | zero => cases h
  | succ calls ih =>
    unfold snapshotPages snapshotPage at h
    cases hinfos : all.filter (·.after streamID fromSnapshot) with
    | nil =>
      simp only [hinfos, length_nil, Nat.not_lt_zero, and_false, if_false, if_true, Option.some.injEq] at h
      exact h ▸ ⟨List.Sublist.refl _, List.Pairwise.nil⟩
    | cons p rest =>
      simp only [hinfos, one_pos, true_and, length_cons] at h
      by_cases hmore : 1 < rest.length + 1
      · simp only [hmore, if_true, Bool.false_eq_true, if_false, take_succ_cons, take_zero,
          getLast?_singleton, Option.map_some, Option.getD_some, Option.map_eq_some_iff] at h
        obtain ⟨later, hlater, rfl⟩ := h
        obtain ⟨hsub, hpairs⟩ := ih hlater
        have hp : p.after streamID fromSnapshot = true :=
          (mem_filter.mp (hinfos ▸ mem_cons_self : p ∈ all.filter _)).2
        have hkeep : all.filter (·.after streamID p.shownName) = rest.filter (·.after streamID p.shownName) := by
          rw [← filter_cons_of_neg (l := rest) (not_namedAfter_self (p := p)), ← hinfos, filter_filter]
          refine filter_congr fun q _ => ?_
          rw [Bool.eq_iff_iff, Bool.and_eq_true]
          exact ⟨fun hq => ⟨hq, SnapshotPointer.after_of_namedAfter hp hq⟩, And.left⟩
        refine ⟨.cons_cons p ((hkeep ▸ hsub).trans filter_sublist), pairwise_cons.mpr ⟨fun q hq => ?_, hpairs⟩⟩
        exact (mem_filter.mp (hsub.subset hq)).2
      · obtain rfl : rest = [] := eq_nil_of_length_eq_zero (by omega)
        simp only [length_nil, lt_irrefl, if_false, if_true, Option.some.injEq] at h
        exact h ▸ ⟨List.Sublist.refl _, pairwise_singleton _ p⟩

end

/-- With every limit, the pages return each snapshot of a volume once, exactly if each snapshot has a
name and a location behind the names of all snapshots at earlier positions. -/
theorem snapshotPages_complete_iff (v : MetaVolume) :
    (∀ limit, 0 < limit →
        ∃ calls result, snapshotPages v.streamID limit v.listSnapshots calls [] = some result ∧
          result.Perm v.listSnapshots) ↔
      v.listSnapshots.Pairwise fun p q =>
        p.shownName < q.shownName ∧ p.shownName < snapshotKey v.streamID q.location := by
  have hnil : v.listSnapshots.filter (·.after v.streamID []) = v.listSnapshots :=
    filter_eq_self.mpr fun _ _ => rfl
  refine Iff.trans ⟨?_, ?_⟩ (List.Pairwise.iff fun _ _ => namedAfter_iff)
  · intro h
    obtain ⟨calls, result, hpages, hperm⟩ := h 1 one_pos
    obtain ⟨hsub, hpairs⟩ := snapshotPages_one hpages
    rw [hnil] at hsub
    rwa [← hsub.eq_of_length hperm.length_eq]
  · intro h limit hlimit
    exact ⟨_, _, snapshotPages_rest hlimit h _ [] _ [] rfl (Nat.lt_succ_self _) hnil, .refl _⟩

/-- Snapshots `c`, `a` and `b`, in this order of their positions. -/
def misnamedSnapshots : MetaVolume where
  objects := (((∅ : Objects).insert 1 {}).insert 2 {}).insert 3 {}
  snapshotPointers := [⟨1, 1, [99], none⟩, ⟨2, 2, [97], none⟩, ⟨3, 3, [98], none⟩]

/-- One at a time, the pages end with `c`; two at a time, they return `c` twice. -/
theorem snapshotPages_misnamed :
    (snapshotPages [] 1 misnamedSnapshots.listSnapshots 4 []).map (·.map (·.name)) = some [[99]] ∧
      (snapshotPages [] 2 misnamedSnapshots.listSnapshots 4 []).map (·.map (·.name)) = some [[99], [97], [99], [98]] := by
  decide

end InClusterStorage.Controller
