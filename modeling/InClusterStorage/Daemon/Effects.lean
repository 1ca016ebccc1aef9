import InClusterStorage.Daemon.ScanAt

/- The effect of the operations that a scan has for one path: the pieces of a file put the file
   together (`localRun_writesFrom`), and the changes of extended attributes make one table out
   of another (`localRun_scanXAttrs`). -/
namespace InClusterStorage.Daemon

open Bytes KeyedSteps Table List Option FileOp Function

/-- The operations of one path, where the directory it is in does not matter. -/
def localRun (ops : List FileOp) (old : Option Entry) : Option (Option Entry) := foldAt (FileOp.effect none) ops old

@[simp] theorem localRun_nil (old : Option Entry) : localRun [] old = some old := rfl

theorem localRun_cons (op : FileOp) (ops : List FileOp) (old : Option Entry) :
    localRun (op :: ops) old = (op.effect none old).bind (localRun ops) := rfl

theorem localRun_append (ops ops' : List FileOp) (old : Option Entry) :
    localRun (ops ++ ops') old = (localRun ops old).bind (localRun ops') :=
  foldAt_append _ ops ops' old

theorem FileOp.InPlace.effect_eq {op : FileOp} (h : op.InPlace) (parent : Option Entry) (old : Option Entry) :
    op.effect parent old = op.effect none old := by
  cases op <;> first | exact h.elim | (cases old <;> rfl)

variable {p : Path} {e : Entry}

theorem of_stepsAt_cons {I : Tree → Prop} {op : FileOp} {ops : List FileOp} {a b : Option Entry}
    (h : StepsAt replayOp I p (op :: ops) a b) (hp : op.path = p) :
    ∃ t c, I t ∧ op.effect (t.parentDir p) a = some c ∧ StepsAt replayOp I p ops c b := by
  cases h with
  | @cons t t' _ _ _ hI hstep hrest =>
    subst hp
    exact ⟨t, t'.lookup op.path, hI, replayOp_self hstep, hrest⟩

theorem of_stepsAt_nil {I : Tree → Prop} {a b : Option Entry} (h : StepsAt replayOp I p [] a b) : b = a := by
  cases h
  rfl

theorem localRun_of_stepsAt {I : Tree → Prop} {ops : List FileOp}
    (hops : ∀ op ∈ ops, op.path = p ∧ op.InPlace) :
    ∀ {a b : Option Entry}, StepsAt replayOp I p ops a b → localRun ops a = some b := by
  induction ops with
  | nil =>
    intro a b h
    rw [of_stepsAt_nil h]
    rfl
  | cons op ops ih =>
    intro a b h
    obtain ⟨hp, hlocal⟩ := hops op mem_cons_self
    obtain ⟨t, c, -, heffect, hrest⟩ := of_stepsAt_cons h hp
    rw [hlocal.effect_eq] at heffect
    rw [localRun_cons, heffect]
    exact ih (fun op' hop' => hops op' (mem_cons_of_mem _ hop')) hrest

/-! Files. -/

variable {offset : Nat} {data : List UInt8}

theorem localRun_pieces {content : List UInt8} (he : e.kind = .file content)
    (k : Nat) (hk : (k - 1) * readSize < data.length ∨ k = 0) :
    localRun ((List.range k).map fun i =>
        FileOp.writeFile p (offset + i * readSize) (slice data (i * readSize) (i * readSize + readSize))) (some e) =
      some (some { e with
        kind := .file (if k = 0 then content else splice content offset (data.take (k * readSize))) }) := by
  induction k with
  | zero => simp [← he]
  | succ k ih =>
    have hlt : k * readSize < data.length := by
      cases hk with
      | inl h => simpa using h
      | inr h => cases h
    have hprev : (k - 1) * readSize < data.length ∨ k = 0 :=
      .inl ((Nat.mul_le_mul_right _ (Nat.sub_le k 1)).trans_lt hlt)
    rw [range_succ, map_append, localRun_append, ih hprev]
    simp only [map_cons, map_nil, bind_some, localRun_cons, localRun_nil, effect, Entry.changeContent, map_some,
      if_neg (Nat.succ_ne_zero k)]
    have hpiece : slice data (k * readSize) (k * readSize + readSize) =
        (data.take ((k + 1) * readSize)).drop (k * readSize) := by
      rw [Nat.succ_mul]
      rfl
    congr 4
    rw [hpiece]
    by_cases h0 : k = 0
    · subst h0
      simp
    have hlen : (data.take (k * readSize)).length = k * readSize := length_take_of_le hlt.le
    have htake : data.take (k * readSize) = (data.take ((k + 1) * readSize)).take (k * readSize) := by
      rw [take_take, min_eq_left (Nat.mul_le_mul_right _ (Nat.le_succ k))]
    calc splice (if k = 0 then content else splice content offset (data.take (k * readSize))) (offset + k * readSize)
          ((data.take ((k + 1) * readSize)).drop (k * readSize))
        = splice (splice content offset (data.take (k * readSize))) (offset + (data.take (k * readSize)).length)
          ((data.take ((k + 1) * readSize)).drop (k * readSize)) := by rw [if_neg h0, hlen]
      _ = splice content offset (data.take (k * readSize) ++ (data.take ((k + 1) * readSize)).drop (k * readSize)) :=
          splice_splice
      _ = splice content offset (data.take ((k + 1) * readSize)) := by rw [htake, take_append_drop]

theorem readSize_pos : 0 < readSize := by
  unfold readSize
  decide

theorem pieces_spec (n : Nat) :
    let k := (n + readSize - 1) / readSize
    ((k - 1) * readSize < n ∨ k = 0) ∧ n ≤ k * readSize ∧ (k = 0 ↔ n = 0) := by
  have hpos := readSize_pos
  generalize readSize = r at hpos ⊢
  simp only
  generalize hk : (n + r - 1) / r = k
  have hlower : k * r ≤ n + r - 1 := by
    rw [← hk]
    exact Nat.div_mul_le_self _ _
  have hupper : n + r - 1 < k * r + r := by
    rw [← hk]
    exact Nat.lt_div_mul_add hpos
  cases k with
  | zero => exact ⟨.inr rfl, by omega, by omega⟩
  | succ k =>
    rw [Nat.succ_mul] at hlower hupper ⊢
    exact ⟨.inl (by rw [Nat.add_sub_cancel]; omega), by omega, by omega⟩

/-- The pieces of a file put it together. -/
theorem localRun_writesFrom {content : List UInt8}
    (he : e.kind = .file content) :
    localRun (writesFrom p offset data) (some e) =
      some (some { e with kind := .file (if data = [] then content else splice content offset data) }) := by
  obtain ⟨hlast, hall, hzero⟩ := pieces_spec data.length
  rw [writesFrom, localRun_pieces he _ hlast, take_of_length_le hall]
  simp only [hzero, length_eq_zero_iff]

theorem localRun_writesFrom_link {target : String}
    (he : e.kind = .symlink target) : localRun (writesFrom p offset data) (some e) = some (some e) := by
  unfold writesFrom
  induction (range ((data.length + readSize - 1) / readSize)) with
  | nil => rfl
  | cons k l ih =>
    simp only [map_cons, localRun_cons, effect, bind_some, Entry.changeContent, he, map_some]
    exact ih

/-! Extended attributes. -/

/-- The attributes after `scanXAttrs`. -/
def changedXattrs (upperXattrs baseline : AList fun _ : String => List UInt8) (old : String → Option (List UInt8))
    (name : String) : Option (List UInt8) :=
  match upperXattrs.lookup name with
  | some value => if baseline.lookup name = some value then old name else some value
  | none => if (baseline.lookup name).isSome then none else old name

theorem localRun_setXAttrs (l : List ((_ : String) × List UInt8)) (hl : l.NodupKeys) :
    localRun (l.map fun x => FileOp.setXAttr p x.1 x.2) (some e) =
      some (some { e with xattrs := fun name => (l.dlookup name).or (e.xattrs name) }) := by
  induction l generalizing e with
  | nil => rfl
  | cons x l ih =>
    obtain ⟨hnew, hrest⟩ := nodupKeys_cons.mp hl
    simp only [map_cons, localRun_cons, effect, map_some, bind_some]
    rw [ih hrest]
    congr 3
    funext name
    dsimp only
    by_cases hname : name = x.1
    · subst hname
      rw [dlookup_eq_none.mpr hnew, update_self, dlookup_cons_eq l x.1 x.2]
      rfl
    · rw [update_of_ne hname, dlookup_cons_ne l x hname]

theorem localRun_removeXAttrs (l : List ((_ : String) × List UInt8)) :
    localRun (l.map fun x => FileOp.removeXAttr p x.1) (some e) =
      some (some { e with xattrs := fun name => if ∃ x ∈ l, x.1 = name then none else e.xattrs name }) := by
  induction l generalizing e with
  | nil => simp
  | cons x l ih =>
    simp only [map_cons, localRun_cons, effect, map_some, bind_some]
    rw [ih]
    congr 3
    funext name
    dsimp only
    by_cases hname : x.1 = name
    · subst hname
      simp only [mem_cons, exists_eq_or_imp, true_or, if_true, update_self]
      split <;> rfl
    · rw [update_of_ne (Ne.symm hname)]
      simp only [mem_cons, exists_eq_or_imp, hname, false_or]

theorem localRun_scanXAttrs (x b : AList fun _ : String => List UInt8) :
    localRun (scanXAttrs p x b) (some e) = some (some { e with xattrs := changedXattrs x b e.xattrs }) := by
  unfold scanXAttrs
  rw [localRun_append, localRun_setXAttrs _ (x.nodupKeys.sublist filter_sublist), bind_some, localRun_removeXAttrs]
  congr 3
  funext name
  have hset : (x.entries.filter fun y => b.lookup y.1 ≠ some y.2).dlookup name =
      (x.lookup name).filter fun value => b.lookup name ≠ some value := by
    apply Option.ext
    intro value
    rw [← mem_def, mem_dlookup_iff (x.nodupKeys.sublist filter_sublist), mem_filter, mem_entries, filter_eq_some_iff]
  have hremoved : (∃ y ∈ b.entries.filter (fun y => x.lookup y.1 = none), y.1 = name) ↔
      (b.lookup name).isSome = true ∧ x.lookup name = none := by
    simp only [mem_filter, decide_eq_true_eq, isSome_iff_exists]
    refine ⟨fun h => ?_, fun h => ?_⟩
    · obtain ⟨y, ⟨hy, hnone⟩, rfl⟩ := h
      exact ⟨⟨y.2, mem_entries.mp hy⟩, hnone⟩
    · obtain ⟨⟨value, hvalue⟩, hnone⟩ := h
      exact ⟨⟨name, value⟩, ⟨mem_entries.mpr hvalue, hnone⟩, rfl⟩
  simp only [hremoved, hset]
  unfold changedXattrs
  cases x.lookup name with
  | none => simp
  | some value => by_cases hb : b.lookup name = some value <;> simp [Option.filter, hb]

theorem changedXattrs_empty (x : AList fun _ : String => List UInt8) :
    changedXattrs x ∅ (fun _ => none) = fun name => x.lookup name := by
  funext name
  unfold changedXattrs
  cases x.lookup name with
  | none => rfl
  | some value => simp

theorem changedXattrs_self (x b : AList fun _ : String => List UInt8) :
    changedXattrs x b (fun name => b.lookup name) = fun name => x.lookup name := by
  funext name
  unfold changedXattrs
  cases x.lookup name with
  | none => cases hb : b.lookup name <;> simp [hb]
  | some value =>
    by_cases hb : b.lookup name = some value <;> simp [hb]

/-- There is nothing to change exactly where the attributes are the same. -/
theorem scanXAttrs_eq_nil {x b : AList fun _ : String => List UInt8} :
    scanXAttrs p x b = [] ↔ ∀ name, x.lookup name = b.lookup name := by
  unfold scanXAttrs
  rw [append_eq_nil_iff, map_eq_nil_iff, map_eq_nil_iff, filter_eq_nil_iff, filter_eq_nil_iff]
  refine ⟨fun h name => ?_, fun h => ⟨fun y hy => ?_, fun y hy => ?_⟩⟩
  · cases hx : x.lookup name with
    | some value =>
      have hset := h.1 ⟨name, value⟩ (mem_entries.mpr hx)
      simp only [ne_eq, decide_not, Bool.not_eq_true, Bool.not_eq_false', decide_eq_true_eq] at hset
      exact hset.symm
    | none =>
      cases hb : b.lookup name with
      | none => rfl
      | some value => exact absurd (decide_eq_true hx) (h.2 ⟨name, value⟩ (mem_entries.mpr hb))
  · have hlookup : x.lookup y.1 = some y.2 := mem_entries.mp hy
    simp [← h y.1, hlookup]
  · have hlookup : b.lookup y.1 = some y.2 := mem_entries.mp hy
    simp [h y.1, hlookup]

theorem localRun_setAttr {e : LocalEntry} {c : Entry} (x b : AList fun _ : String => List UInt8) :
    localRun (e.setAttr p :: scanXAttrs p x b) (some c) =
      some (some { c.setAttr (goMode e.mode) e.uid e.gid with xattrs := changedXattrs x b c.xattrs }) := by
  simp only [localRun_cons, LocalEntry.setAttr, effect, map_some, bind_some]
  rw [localRun_scanXAttrs]
  rfl

end InClusterStorage.Daemon
