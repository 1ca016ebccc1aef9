import Mathlib.Data.List.AList

/- Finite maps with values of one type, as association lists: what an entry, a
   lookup and a count of entries are after an insertion or a removal. -/
namespace Table

open List Option

variable {α β : Type*} [DecidableEq α] {a a' : α} {b : β} {m : AList fun _ : α => β}

theorem lookup_insert (a : α) (b : β) (m : AList fun _ : α => β) (a' : α) :
    (m.insert a b).lookup a' = if a' = a then some b else m.lookup a' := by
  split
  case isTrue h => subst h; exact AList.lookup_insert m
  case isFalse h => exact AList.lookup_insert_ne h

theorem lookup_erase (a : α) (m : AList fun _ : α => β) (a' : α) :
    (m.erase a).lookup a' = if a' = a then none else m.lookup a' := by
  split
  case isTrue h => subst h; exact AList.lookup_erase a' m
  case isFalse h => exact AList.lookup_erase_ne h

theorem lookup_of_erase (h : (m.erase a).lookup a' = some b) : m.lookup a' = some b := by
  rw [lookup_erase] at h
  split_ifs at h
  exact h

/-- What holds for the new entry and for every old one holds for every one. -/
theorem forall_insert {p : α → β → Prop} (hnew : p a b) (hold : ∀ a' b', m.lookup a' = some b' → p a' b')
    (a' : α) (b' : β) (h : (m.insert a b).lookup a' = some b') : p a' b' := by
  rw [lookup_insert] at h
  split_ifs at h with heq
  · cases h
    exact heq ▸ hnew
  · exact hold a' b' h

/-- A value is changed, where there is one. -/
theorem lookup_modify (a : α) (f : β → β) (m : AList fun _ : α => β) (a' : α) :
    ((m.lookup a).elim m fun b => m.insert a (f b)).lookup a' =
      if a' = a then (m.lookup a').map f else m.lookup a' := by
  split_ifs with h
  · subst h
    cases hl : m.lookup a' with
    | none => exact hl
    | some b => exact AList.lookup_insert m
  · cases m.lookup a with
    | none => rfl
    | some b => exact AList.lookup_insert_ne h

/-- An insertion removes nothing. -/
theorem exists_lookup_insert (a : α) (b : β) (h : ∃ c, m.lookup a' = some c) :
    ∃ c, (m.insert a b).lookup a' = some c := by
  rw [lookup_insert]
  split
  · exact ⟨b, rfl⟩
  · exact h

theorem insert_erase_self (a : α) (b : β) (m : AList fun _ : α => β) : (m.erase a).insert a b = m.insert a b := by
  apply AList.ext
  have hnot : a ∉ (m.entries.kerase a).keys := notMem_keys_kerase a m.nodupKeys
  show (⟨a, b⟩ : (_ : α) × β) :: (m.entries.kerase a).kerase a = ⟨a, b⟩ :: m.entries.kerase a
  rw [kerase_of_notMem_keys hnot]

theorem mem_entries {e : (_ : α) × β} : e ∈ m.entries ↔ m.lookup e.1 = some e.2 :=
  (mem_dlookup_iff m.nodupKeys).symm

theorem mem_entries_erase {e : (_ : α) × β} : e ∈ (m.erase a).entries ↔ e.1 ≠ a ∧ e ∈ m.entries := by
  rw [mem_entries, mem_entries, lookup_erase]
  split
  case isTrue h => simp [h]
  case isFalse h => simp [h]

theorem mem_entries_insert {e : (_ : α) × β} : e ∈ (m.insert a b).entries ↔ e = ⟨a, b⟩ ∨ e.1 ≠ a ∧ e ∈ m.entries := by
  obtain ⟨k, v⟩ := e
  rw [mem_entries, mem_entries, lookup_insert]
  split
  case isTrue h => simp only at h; subst h; simp [eq_comm]
  case isFalse h => simp only at h; simp [h]

/-! Sizes. -/

theorem length_eq_zero : m.entries.length = 0 ↔ ∀ a, m.lookup a = none := by
  constructor
  · intro h a
    have hnil : m.entries = [] := length_eq_zero_iff.mp h
    show m.entries.dlookup a = none
    rw [hnil]
    rfl
  · intro h
    by_contra hpos
    obtain ⟨e, he⟩ := exists_mem_of_length_pos (Nat.pos_of_ne_zero hpos)
    have hlook := mem_entries.mp he
    rw [h e.1] at hlook
    simp at hlook

theorem length_pos : 0 < m.entries.length ↔ ∃ a b, m.lookup a = some b := by
  rw [Nat.pos_iff_ne_zero, Ne, length_eq_zero]
  simp only [not_forall, ne_none_iff_exists']

/-! Loops. -/

/-- A loop over distinct keys that changes, at each of them, what is read there and
nothing else. -/
theorem foldl_at {σ γ : Type*} (read : σ → α → γ) {step : σ → α → σ} {change : α → γ → γ}
    (hstep : ∀ s a a', read (step s a) a' = if a' = a then change a (read s a) else read s a') {keys : List α}
    (hkeys : keys.Nodup) (s : σ) (a : α) :
    read (keys.foldl step s) a = if a ∈ keys then change a (read s a) else read s a := by
  induction keys generalizing s with
  | nil => rfl
  | cons k keys ih =>
    have hk : k ∉ keys := (nodup_cons.mp hkeys).1
    rw [foldl_cons, ih (nodup_cons.mp hkeys).2, hstep]
    by_cases hak : a = k
    · subst hak
      simp [hk]
    · simp [hak]

theorem lookup_foldl_insert (value : α → β) (keys : List α) (m : AList fun _ : α => β) (a : α) :
    (keys.foldl (fun m k => m.insert k (value k)) m).lookup a = if a ∈ keys then some (value a) else m.lookup a := by
  induction keys generalizing m with
  | nil => rfl
  | cons k keys ih =>
    rw [foldl_cons, ih, lookup_insert]
    by_cases hak : a = k <;> simp [hak]

theorem lookup_foldl_erase (p : α → Prop) [DecidablePred p] (keys : List α) (m : AList fun _ : α => β) (a : α) :
    (keys.foldl (fun m k => if p k then m.erase k else m) m).lookup a =
      if a ∈ keys ∧ p a then none else m.lookup a := by
  induction keys generalizing m with
  | nil => simp
  | cons k keys ih =>
    rw [foldl_cons, ih]
    by_cases hak : a = k
    · subst hak
      by_cases hp : p a <;> simp [hp]
    · by_cases hp : p k <;> simp [hp, hak]

theorem mem_keys : a ∈ m.keys ↔ (m.lookup a).isSome := by
  rw [AList.lookup_isSome]
  exact AList.mem_keys.symm

/-- A loop over the keys of a map, where a key that is not there changes nothing. -/
theorem foldl_keys {σ γ : Type*} (read : σ → α → γ) {step : σ → α → σ} {change : α → γ → γ}
    (hstep : ∀ s a a', read (step s a) a' = if a' = a then change a (read s a) else read s a')
    (hnone : ∀ a c, m.lookup a = none → change a c = c) (s : σ) (a : α) :
    read (m.keys.foldl step s) a = change a (read s a) := by
  rw [foldl_at read hstep m.keys_nodup]
  split
  case isTrue h => rfl
  case isFalse h => rw [hnone a _ (by simpa [mem_keys] using h)]

/-- What a loop over the entries makes for one key. -/
theorem filter_flatMap {ω : Type*} {f : (_ : α) × β → List ω} {key : ω → α} (hkey : ∀ e, ∀ op ∈ f e, key op = e.1)
    (m : AList fun _ : α => β) (a : α) :
    (m.entries.flatMap f).filter (fun op => key op = a) = ((m.lookup a).map fun b => f ⟨a, b⟩).getD [] := by
  obtain ⟨l, hnodup⟩ := m
  show (l.flatMap f).filter _ = ((l.dlookup a).map _).getD []
  induction l with
  | nil => rfl
  | cons e l ih =>
    obtain ⟨hnew, hrest⟩ := nodupKeys_cons.mp hnodup
    rw [flatMap_cons, filter_append, ih hrest]
    by_cases ha : e.1 = a
    · subst ha
      have hall : (f e).filter (fun op => key op = e.1) = f e := by
        rw [filter_eq_self]
        intro op hop
        exact decide_eq_true (hkey e op hop)
      rw [hall, dlookup_eq_none.mpr hnew, dlookup_cons_eq l e.1 e.2]
      exact append_nil _
    · have hnone : (f e).filter (fun op => key op = a) = [] := by
        rw [filter_eq_nil_iff]
        intro op hop hk
        exact ha ((hkey e op hop).symm.trans (of_decide_eq_true hk))
      rw [hnone, nil_append, dlookup_cons_ne l e (Ne.symm ha)]

/-- The entries with the keys that satisfy `p`. -/
def select (p : α → Bool) (m : AList fun _ : α => β) : AList fun _ : α => β :=
  ⟨m.entries.filter fun e => p e.1, m.nodupKeys.sublist List.filter_sublist⟩

theorem lookup_select (p : α → Bool) (m : AList fun _ : α => β) (a : α) :
    (select p m).lookup a = if p a then m.lookup a else none := by
  apply ext
  intro b
  rw [← mem_entries (m := select p m) (e := ⟨a, b⟩)]
  show (⟨a, b⟩ : (_ : α) × β) ∈ m.entries.filter _ ↔ _
  rw [mem_filter, mem_entries]
  cases hp : p a with
  | false | true => simp

omit [DecidableEq α] in
theorem keys_filterMap_sublist (f : α → β → Option β) (l : List ((_ : α) × β)) :
    (l.filterMap fun e => (f e.1 e.2).map fun b => (⟨e.1, b⟩ : (_ : α) × β)).keys.Sublist l.keys := by
  induction l with
  | nil => exact List.Sublist.refl _
  | cons e l ih =>
    cases hf : f e.1 e.2 with
    | none =>
      rw [filterMap_cons_none (by rw [hf]; rfl)]
      exact ih.cons e.1
    | some b =>
      rw [filterMap_cons_some (by rw [hf]; rfl), keys_cons]
      exact ih.cons_cons e.1

/-- The entries that `f` keeps, with the values it gives them. -/
def filterMap (f : α → β → Option β) (m : AList fun _ : α => β) : AList fun _ : α => β :=
  ⟨m.entries.filterMap fun e => (f e.1 e.2).map fun b => ⟨e.1, b⟩,
    List.Nodup.sublist (keys_filterMap_sublist f m.entries) m.nodupKeys⟩

theorem lookup_filterMap (f : α → β → Option β) (m : AList fun _ : α => β) (a : α) :
    (filterMap f m).lookup a = (m.lookup a).bind (f a) := by
  apply ext
  intro b
  rw [← mem_entries (m := filterMap f m) (e := ⟨a, b⟩)]
  show (⟨a, b⟩ : (_ : α) × β) ∈ m.entries.filterMap _ ↔ _
  rw [mem_filterMap, bind_eq_some_iff]
  constructor
  · rintro ⟨⟨k, c⟩, hmem, hf⟩
    obtain ⟨d, hd, heq⟩ := map_eq_some_iff.mp hf
    cases heq
    exact ⟨c, mem_entries.mp hmem, hd⟩
  · rintro ⟨c, hc, hf⟩
    refine ⟨⟨a, c⟩, mem_entries.mpr hc, ?_⟩
    rw [hf]
    rfl

/-! Counts. -/

/-- How many entries satisfy `p`. -/
def tally (p : α → β → Bool) (m : AList fun _ : α => β) : Nat := m.entries.countP fun e => p e.1 e.2

variable {p q : α → β → Bool}

theorem tally_insert (p : α → β → Bool) (a : α) (b : β) (m : AList fun _ : α => β) :
    tally p (m.insert a b) = tally p (m.erase a) + if p a b then 1 else 0 := by
  simp only [tally, AList.entries_insert, countP_cons]
  rfl

theorem tally_erase_of_none (p : α → β → Bool) (h : m.lookup a = none) : tally p (m.erase a) = tally p m := by
  have hnot : a ∉ m.entries.keys := AList.lookup_eq_none.1 h
  show (m.entries.kerase a).countP _ = _
  rw [kerase_of_notMem_keys hnot]
  rfl

/-- An entry that is removed is one that was counted, if it satisfies `p`. -/
theorem tally_erase (p : α → β → Bool) (h : m.lookup a = some b) :
    tally p m = tally p (m.erase a) + if p a b then 1 else 0 := by
  rw [← tally_insert]
  have hperm : m.entries.Perm (m.insert a b).entries := by
    apply (perm_ext_iff_of_nodup m.nodupKeys.nodup (m.insert a b).nodupKeys.nodup).2
    intro e
    rw [mem_entries_insert]
    by_cases hk : e.1 = a
    · obtain ⟨k, v⟩ := e
      subst hk
      simp [mem_entries, h, eq_comm]
    · have hne : e ≠ ⟨a, b⟩ := fun he => hk (congrArg Sigma.fst he)
      simp [hk, hne]
  exact hperm.countP_eq _

theorem tally_insert_of_none (p : α → β → Bool) (b : β) (h : m.lookup a = none) :
    tally p (m.insert a b) = tally p m + if p a b then 1 else 0 := by
  rw [tally_insert, tally_erase_of_none p h]

/-- An entry is moved to the key `a'`, over the one that may be there. -/
theorem tally_move (p : α → β → Bool) (a' : α) (b' : β) (h : m.lookup a = some b) :
    tally p ((m.erase a).insert a' b') + (if p a b then 1 else 0) +
        (if a' = a then 0 else ((m.lookup a').map fun c => if p a' c then 1 else 0).getD 0) =
      tally p m + if p a' b' then 1 else 0 := by
  rw [tally_insert, tally_erase p h]
  by_cases heq : a' = a
  · rw [if_pos heq, heq, tally_erase_of_none p (AList.lookup_erase a m)]
    omega
  rw [if_neg heq]
  have hsame : (m.erase a).lookup a' = m.lookup a' := AList.lookup_erase_ne heq
  cases hl : m.lookup a' with
  | none =>
    rw [tally_erase_of_none p (hsame.trans hl)]
    show _ + 0 = _
    omega
  | some c =>
    rw [tally_erase p (hsame.trans hl)]
    show _ + (if p a' c then 1 else 0) = _
    omega

theorem tally_congr (h : ∀ a b, m.lookup a = some b → p a b = q a b) : tally p m = tally q m :=
  countP_congr fun e he => by rw [h e.1 e.2 (mem_entries.1 he)]

/-- Tables that agree on the keys that satisfy `q` have as many of them. -/
theorem tally_eq_of_lookup {q : α → Bool} {m' : AList fun _ : α => β} (h : ∀ a, q a = true → m'.lookup a = m.lookup a) :
    tally (fun a _ => q a) m' = tally (fun a _ => q a) m := by
  unfold tally
  rw [countP_eq_length_filter, countP_eq_length_filter]
  apply List.Perm.length_eq
  apply (perm_ext_iff_of_nodup (m'.nodupKeys.nodup.filter _) (m.nodupKeys.nodup.filter _)).2
  intro e
  rw [mem_filter, mem_filter, mem_entries, mem_entries]
  refine and_congr_left fun hq => ?_
  rw [h e.1 hq]

theorem tally_eq_zero : tally p m = 0 ↔ ∀ a b, m.lookup a = some b → p a b = false := by
  simp only [tally, countP_eq_zero]
  constructor
  · intro h a b hab
    simpa using h ⟨a, b⟩ (mem_entries.2 hab)
  · intro h e he
    simpa using h e.1 e.2 (mem_entries.1 he)

theorem tally_pos : 0 < tally p m ↔ ∃ a b, m.lookup a = some b ∧ p a b = true := by
  rw [Nat.pos_iff_ne_zero, ne_eq, tally_eq_zero]
  push Not
  simp

/-- Where one entry only satisfies `p`, an entry that does is that one. -/
theorem tally_le_one {b' : β} (h : tally p m ≤ 1) (hab : m.lookup a = some b) (hp : p a b = true)
    (hab' : m.lookup a' = some b') (hp' : p a' b' = true) : a = a' := by
  by_contra hne
  have hpos : 0 < tally p (m.erase a) := by
    apply tally_pos.2
    refine ⟨a', b', ?_, hp'⟩
    rwa [lookup_erase, if_neg (Ne.symm hne)]
  rw [tally_erase p hab, if_pos hp] at h
  omega

theorem length_le_one : m.entries.length ≤ 1 ↔ ∀ a b a' b', m.lookup a = some b → m.lookup a' = some b' → a = a' := by
  constructor
  · intro hle a b a' b' hab hab'
    refine tally_le_one (p := fun _ _ => true) ?_ hab rfl hab' rfl
    rwa [tally, List.countP_true]
  · intro hsame
    by_contra hgt
    match hm : m.entries, m.nodupKeys with
    | [], _ | [_], _ => simp [hm] at hgt
    | e :: e' :: l, hnodup =>
      have hne : e.1 ≠ e'.1 := by
        rw [List.nodupKeys_cons] at hnodup
        exact fun heq => hnodup.1 (heq ▸ by simp [List.keys])
      refine hne (hsame e.1 e.2 e'.1 e'.2 (mem_entries.mp ?_) (mem_entries.mp ?_))
      · simp [hm]
      · simp [hm]

end Table
