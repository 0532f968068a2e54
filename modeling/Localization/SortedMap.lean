namespace Localization

/-- A finite map kept as its entries in strictly increasing order of keys, so that equal maps are
equal values. -/
structure SortedMap (α : Type u) (β : Type v) [Ord α] where
  entries : List (α × β)
  increasing : entries.Pairwise fun a b => compare a.1 b.1 = .lt
deriving DecidableEq

namespace SortedMap

variable {α : Type u} {β : Type v} [Ord α]

def empty : SortedMap α β := ⟨[], .nil⟩

instance : Inhabited (SortedMap α β) := ⟨empty⟩

/-- The keys, in increasing order. -/
def keys (m : SortedMap α β) : List α :=
  m.entries.map (·.1)

def size (m : SortedMap α β) : Nat :=
  m.entries.length

/-- The value of the first entry with a key. -/
def lookupEntry (k : α) : List (α × β) → Option β
  | [] => none
  | e :: rest => if compare k e.1 = .eq then some e.2 else lookupEntry k rest

def get? (m : SortedMap α β) (k : α) : Option β :=
  lookupEntry k m.entries

/-- Puts an entry at its place, replacing the one with its key. -/
def insertEntry (k : α) (v : β) : List (α × β) → List (α × β)
  | [] => [(k, v)]
  | e :: rest =>
    match compare k e.1 with
    | .lt => (k, v) :: e :: rest
    | .eq => (k, v) :: rest
    | .gt => e :: insertEntry k v rest

private theorem mem_insertEntry {k : α} {v : β} {a : α × β} {l : List (α × β)}
    (h : a ∈ insertEntry k v l) : a = (k, v) ∨ a ∈ l := by
  induction l with
  | nil => simpa [insertEntry] using h
  | cons e rest ih =>
    unfold insertEntry at h
    split at h <;> grind

private theorem insertEntry_increasing [Std.TransOrd α] (k : α) (v : β) {l : List (α × β)}
    (h : l.Pairwise fun a b => compare a.1 b.1 = .lt) :
    (insertEntry k v l).Pairwise fun a b => compare a.1 b.1 = .lt := by
  induction l with
  | nil => simp [insertEntry]
  | cons e rest ih =>
    obtain ⟨hhead, htail⟩ := List.pairwise_cons.1 h
    unfold insertEntry
    split
    · rename_i hlt
      refine List.pairwise_cons.2 ⟨fun a ha => ?_, h⟩
      rcases List.mem_cons.1 ha with rfl | ha
      · exact hlt
      · exact Std.TransCmp.lt_trans hlt (hhead a ha)
    · rename_i heq
      exact List.pairwise_cons.2 ⟨fun a ha => Std.TransCmp.lt_of_eq_of_lt heq (hhead a ha), htail⟩
    · rename_i hgt
      refine List.pairwise_cons.2 ⟨fun a ha => ?_, ih htail⟩
      rcases mem_insertEntry ha with rfl | ha
      · exact Std.OrientedCmp.lt_of_gt hgt
      · exact hhead a ha

/-- The map with `v` under `k`, whatever was there before. -/
def insert [Std.TransOrd α] (m : SortedMap α β) (k : α) (v : β) : SortedMap α β :=
  ⟨insertEntry k v m.entries, insertEntry_increasing k v m.increasing⟩

/-- The map of the pairs; of two pairs with one key the later counts. -/
def ofList [Std.TransOrd α] (pairs : List (α × β)) : SortedMap α β :=
  pairs.foldl (fun m e => m.insert e.1 e.2) empty

@[simp] theorem get?_empty (k : α) : (empty : SortedMap α β).get? k = none := rfl

@[simp] theorem get?_insert_self [Std.TransOrd α] (m : SortedMap α β) (k : α) (v : β) :
    (m.insert k v).get? k = some v := by
  obtain ⟨l, h⟩ := m
  simp only [get?, insert]
  clear h
  induction l with
  | nil => simp [insertEntry, lookupEntry]
  | cons e rest ih =>
    unfold insertEntry
    split <;> simp [lookupEntry, *]

theorem get?_insert_of_ne [Std.TransOrd α] [Std.LawfulEqOrd α] (m : SortedMap α β) {k a : α}
    (hne : a ≠ k) (v : β) : (m.insert k v).get? a = m.get? a := by
  obtain ⟨l, h⟩ := m
  have hk : compare a k ≠ .eq := fun heq => hne (Std.LawfulEqCmp.eq_of_compare heq)
  simp only [get?, insert]
  clear h
  induction l with
  | nil => simp [insertEntry, lookupEntry, hk]
  | cons e rest ih =>
    unfold insertEntry
    split
    · simp [lookupEntry, hk]
    · rename_i heq
      have he : compare a e.1 ≠ .eq := Std.LawfulEqCmp.eq_of_compare heq ▸ hk
      simp [lookupEntry, hk, he]
    · simp [lookupEntry, ih]

theorem get?_insert [Std.TransOrd α] [Std.LawfulEqOrd α] [DecidableEq α] (m : SortedMap α β)
    (k a : α) (v : β) : (m.insert k v).get? a = if a = k then some v else m.get? a := by
  by_cases ha : a = k
  · rw [ha, get?_insert_self, if_pos rfl]
  · rw [get?_insert_of_ne m ha v, if_neg ha]

theorem mem_keys_iff [Std.TransOrd α] [Std.LawfulEqOrd α] (m : SortedMap α β) (k : α) :
    k ∈ m.keys ↔ (m.get? k).isSome := by
  obtain ⟨l, h⟩ := m
  simp only [keys, get?]
  clear h
  induction l with
  | nil => simp [lookupEntry]
  | cons e rest ih =>
    simp only [List.map_cons, List.mem_cons, ih, lookupEntry]
    by_cases hk : k = e.1
    · simp [hk]
    · have he : compare k e.1 ≠ .eq := fun heq => hk (Std.LawfulEqCmp.eq_of_compare heq)
      simp [hk, he]

theorem mem_keys_insert [Std.TransOrd α] [Std.LawfulEqOrd α] (m : SortedMap α β) (k : α) (v : β)
    (a : α) : a ∈ (m.insert k v).keys ↔ a = k ∨ a ∈ m.keys := by
  rw [mem_keys_iff, mem_keys_iff]
  by_cases ha : a = k
  · simp [ha]
  · simp [get?_insert_of_ne m ha, ha]

theorem increasing_keys (m : SortedMap α β) : m.keys.Pairwise (compare · · = .lt) :=
  List.pairwise_map.2 m.increasing

theorem ne_of_compare_lt [Std.TransOrd α] {a b : α} (h : compare a b = .lt) : a ≠ b := by
  rintro rfl
  simp at h

theorem mem_entries_iff [Std.TransOrd α] [Std.LawfulEqOrd α] (m : SortedMap α β) (k : α) (v : β) :
    (k, v) ∈ m.entries ↔ m.get? k = some v := by
  obtain ⟨l, h⟩ := m
  simp only [get?]
  induction l with
  | nil => simp [lookupEntry]
  | cons e rest ih =>
    obtain ⟨a, w⟩ := e
    obtain ⟨hhead, htail⟩ := List.pairwise_cons.1 h
    rw [List.mem_cons, lookupEntry]
    by_cases hk : k = a
    · subst hk
      have hrest : (k, v) ∉ rest := fun hmem => ne_of_compare_lt (hhead _ hmem) rfl
      simp [hrest, eq_comm]
    · have ha : compare k a ≠ .eq := fun heq => hk (Std.LawfulEqCmp.eq_of_compare heq)
      simp [hk, ha, ih htail]

/-- Maps that have the same value for every key are equal. -/
theorem ext_get? [Std.TransOrd α] [Std.LawfulEqOrd α] {m n : SortedMap α β}
    (h : ∀ k, m.get? k = n.get? k) : m = n := by
  have hnodup (m : SortedMap α β) : m.entries.Nodup :=
    m.increasing.imp fun hlt heq => ne_of_compare_lt hlt (congrArg Prod.fst heq)
  have hperm : m.entries.Perm n.entries := by
    rw [List.perm_ext_iff_of_nodup (hnodup m) (hnodup n)]
    intro ⟨k, v⟩
    rw [mem_entries_iff, mem_entries_iff, h]
  have hentries : m.entries = n.entries := by
    refine hperm.eq_of_pairwise (fun a b _ _ hab hba => ?_) m.increasing n.increasing
    exact absurd (Std.TransCmp.lt_trans hab hba) (fun hlt => ne_of_compare_lt hlt rfl)
  cases m
  cases n
  cases hentries
  rfl

private theorem get?_foldl_insert [Std.TransOrd α] [Std.LawfulEqOrd α] [DecidableEq α]
    (f : α → Option β) (keys : List α) (m : SortedMap α β) (k : α) :
    ((keys.filterMap fun a => (f a).map (a, ·)).foldl (fun m e => m.insert e.1 e.2) m).get? k =
      if k ∈ keys then (f k).or (m.get? k) else m.get? k := by
  induction keys generalizing m with
  | nil => simp
  | cons a rest ih =>
    cases ha : f a with
    | none =>
      simp only [List.filterMap_cons, ha, Option.map_none, ih, List.mem_cons]
      by_cases hk : k = a <;> simp [hk, ha]
    | some v =>
      simp only [List.filterMap_cons, ha, Option.map_some, List.foldl_cons, ih, List.mem_cons]
      by_cases hk : k = a
      · subst hk
        simp [ha]
      · simp [hk, get?_insert_of_ne]

/-- A map of what a function gives for some keys. -/
theorem get?_ofList_filterMap [Std.TransOrd α] [Std.LawfulEqOrd α] [DecidableEq α]
    (f : α → Option β) (keys : List α) (k : α) :
    (ofList (keys.filterMap fun a => (f a).map (a, ·))).get? k =
      if k ∈ keys then f k else none := by
  simp [ofList, get?_foldl_insert]

end SortedMap

end Localization
