import Marginalia.Collection.Index
import Marginalia.Proofs.Collection.Keyed

set_option autoImplicit false

/-!
# Looking up in an index

What an index holds under a key, after each operation on it.  Since the keys of
an index rise strictly, an entry is in it exactly when it is found under its key.
-/

namespace Marginalia.Index

variable {α : Type}

/-! ## Entries in rising order -/

theorem find?_cons_ne {e : String × α} {l : List (String × α)} {k : String} (h : e.1 ≠ k) :
    (e :: l).find? (·.1 == k) = l.find? (·.1 == k) := by
  simp [h]

/-- Putting an entry in its place changes what is found under its key only. -/
theorem find?_place (merge : α → α → α) (key k : String) (value : α) {l : List (String × α)}
    (h : l.Pairwise fun a b => a.1 < b.1) :
    (place merge key value l).find? (·.1 == k) =
      if k = key then
        some (key, ((l.find? (·.1 == key)).map fun e => merge e.2 value).getD value)
      else l.find? (·.1 == k) := by
  induction l with
  | nil =>
    by_cases hk : k = key
    · simp [place, hk]
    · simp [place, hk, Ne.symm hk]
  | cons a rest ih =>
    obtain ⟨k', v⟩ := a
    obtain ⟨hfirst, hrest⟩ := List.pairwise_cons.1 h
    unfold place
    split
    · -- the new key stands before all others, so it is not among them
      rename_i hlt
      have hnone : ((k', v) :: rest).find? (·.1 == key) = none := by
        refine List.find?_eq_none.2 fun e he => ?_
        rcases List.mem_cons.1 he with rfl | he
        · simp [(String.ne_of_lt hlt).symm]
        · simp [(String.ne_of_lt (String.lt_trans hlt (hfirst e he))).symm]
      by_cases hk : k = key
      · simp [hk, hnone]
      · rw [if_neg hk, find?_cons_ne (Ne.symm hk)]
    · split
      · rename_i heq
        subst heq
        by_cases hk : k = key
        · simp [hk]
        · simp [hk, Ne.symm hk]
      · rename_i hne
        by_cases hk' : k' = k
        · have hk : k ≠ key := fun hk => hne (hk ▸ hk').symm
          simp [hk', hk]
        · rw [find?_cons_ne hk', ih hrest, find?_cons_ne (Ne.symm hne), find?_cons_ne hk']

/-! ## Operations -/

@[simp] theorem get?_empty (k : String) : (empty : Index α).get? k = none := rfl

theorem get?_insert (index : Index α) (key k : String) (value : α) :
    (index.insert key value).get? k = if k = key then some value else index.get? k := by
  simp only [get?, insert, find?_place _ _ _ _ index.rising]
  split
  · cases index.entries.find? (·.1 == key) <;> rfl
  · rfl

theorem get?_insertNew (index : Index α) (key k : String) (value : α) :
    (index.insertNew key value).get? k =
      if k = key then some ((index.get? key).getD value) else index.get? k := by
  simp only [get?, insertNew, find?_place _ _ _ _ index.rising]
  split
  · cases index.entries.find? (·.1 == key) <;> rfl
  · rfl

theorem get?_erase (index : Index α) (key k : String) :
    (index.erase key).get? k = if k = key then none else index.get? k := by
  have hfind : (index.erase key).entries.find? (·.1 == k) =
      if k = key then none else index.entries.find? (·.1 == k) := by
    simp only [erase]
    induction index.entries with
    | nil => simp
    | cons e rest ih =>
      by_cases hkey : e.1 = key
      · by_cases hk : k = key
        · rw [List.filter_cons_of_neg (by simpa using hkey), ih, if_pos hk, if_pos hk]
        · rw [List.filter_cons_of_neg (by simpa using hkey), ih,
            find?_cons_ne (hkey ▸ Ne.symm hk)]
      · rw [List.filter_cons_of_pos (by simpa using hkey)]
        by_cases hek : e.1 = k
        · have hk : k ≠ key := fun hk => hkey (hek.trans hk)
          simp [hek, hk]
        · rw [find?_cons_ne hek, find?_cons_ne hek, ih]
  simp only [get?, hfind]
  split <;> rfl

/-- Taking out several keys leaves what is under all others. -/
theorem get?_foldl_erase (gone : List String) (index : Index α) (k : String) :
    (gone.foldl erase index).get? k = if k ∈ gone then none else index.get? k := by
  induction gone generalizing index with
  | nil => rw [List.foldl_nil, if_neg List.not_mem_nil]
  | cons key gone ih =>
    rw [List.foldl_cons, ih, get?_erase]
    by_cases hk : k = key
    · subst hk
      simp
    · simp [hk]

/-! ## Entries -/

theorem nodup_keys (index : Index α) : (index.entries.map (·.1)).Nodup := by
  rw [List.nodup_iff_pairwise_ne, List.pairwise_map]
  exact index.rising.imp fun h => String.ne_of_lt h

/-- An entry is in an index exactly when it is found under its key. -/
theorem mem_entries_iff (index : Index α) (key : String) (value : α) :
    (key, value) ∈ index.entries ↔ index.get? key = some value := by
  simp only [get?, Option.map_eq_some_iff, Keyed.find?_eq_some_iff index.nodup_keys]
  constructor
  · intro h
    exact ⟨(key, value), ⟨h, rfl⟩, rfl⟩
  · rintro ⟨⟨k, v⟩, ⟨h, rfl⟩, rfl⟩
    exact h

/-- Two lists of entries in rising order are the same when they have the same entries. -/
theorem eq_of_rising {l l' : List (String × α)} (h : l.Pairwise fun a b => a.1 < b.1)
    (h' : l'.Pairwise fun a b => a.1 < b.1) (hmem : ∀ e, e ∈ l ↔ e ∈ l') : l = l' := by
  have hnodup : ∀ {m : List (String × α)}, (m.Pairwise fun a b => a.1 < b.1) → m.Nodup := by
    intro m hm
    refine hm.imp ?_
    rintro a b hlt rfl
    exact String.lt_irrefl _ hlt
  have hperm : l.Perm l' := (List.perm_ext_iff_of_nodup (hnodup h) (hnodup h')).2 hmem
  refine hperm.eq_of_pairwise ?_ h h'
  intro a b _ _ hlt hgt
  exact absurd hgt (String.lt_asymm hlt)

/-- Two indexes are the same when they have the same entries. -/
theorem eq_of_mem_iff {index index' : Index α}
    (hmem : ∀ e, e ∈ index.entries ↔ e ∈ index'.entries) : index = index' := by
  have hentries := eq_of_rising index.rising index'.rising hmem
  cases index
  cases index'
  cases hentries
  rfl

/-! ## Indexes of lists -/

theorem get?_foldl_insertNew (l : List (String × α)) (index : Index α) (k : String) :
    (l.foldl (fun index e => index.insertNew e.1 e.2) index).get? k =
      (index.get? k).or ((l.find? (·.1 == k)).map (·.2)) := by
  induction l generalizing index with
  | nil => simp
  | cons e rest ih =>
    rw [List.foldl_cons, ih, get?_insertNew]
    by_cases hk : k = e.1
    · subst hk
      cases index.get? e.1 <;> simp
    · rw [if_neg hk, find?_cons_ne (Ne.symm hk)]

/-- An index that keeps the first entry of a key holds the first one of the list. -/
theorem get?_ofListFirst (l : List (String × α)) (k : String) :
    (ofListFirst l).get? k = (l.find? (·.1 == k)).map (·.2) := by
  simp [ofListFirst, get?_foldl_insertNew]

theorem get?_foldl_insert (l : List (String × α)) (index : Index α) (k : String) :
    (l.foldl (fun index e => index.insert e.1 e.2) index).get? k =
      ((l.reverse.find? (·.1 == k)).map (·.2)).or (index.get? k) := by
  induction l generalizing index with
  | nil => simp
  | cons e rest ih =>
    rw [List.foldl_cons, ih, get?_insert, List.reverse_cons, List.find?_append]
    by_cases hk : k = e.1
    · subst hk
      cases rest.reverse.find? (·.1 == e.1) <;> simp
    · rw [if_neg hk, List.find?_cons_of_neg (by simpa using Ne.symm hk)]
      simp

/-- The index of a list without two entries of one key holds its entries. -/
theorem get?_ofList {l : List (String × α)} (h : (l.map (·.1)).Nodup) {k : String} {v : α} :
    (ofList l).get? k = some v ↔ (k, v) ∈ l := by
  have hrev : (l.reverse.map (·.1)).Nodup := by
    rw [List.map_reverse]
    exact List.nodup_reverse.2 h
  rw [ofList, get?_foldl_insert, get?_empty, Option.or_none, Option.map_eq_some_iff]
  simp only [Keyed.find?_eq_some_iff hrev, List.mem_reverse]
  constructor
  · rintro ⟨⟨k', v'⟩, ⟨h, rfl⟩, rfl⟩
    exact h
  · intro h
    exact ⟨(k, v), ⟨h, rfl⟩, rfl⟩

theorem find?_keyed (keys : List String) (f : String → α) (k : String) :
    ((keys.map fun e => (e, f e)).find? (·.1 == k)).map (·.2) =
      if k ∈ keys then some (f k) else none := by
  induction keys with
  | nil => rfl
  | cons key rest ih =>
    rw [List.map_cons]
    by_cases hkey : key = k
    · simp [hkey]
    · rw [find?_cons_ne hkey, ih]
      simp [Ne.symm hkey]

/-- An index of values that are told by their keys holds each of them, however often a key
comes. -/
theorem get?_ofList_keyed (keys : List String) (f : String → α) (k : String) :
    (ofList (keys.map fun e => (e, f e))).get? k = if k ∈ keys then some (f k) else none := by
  rw [ofList, get?_foldl_insert, get?_empty, Option.or_none, ← List.map_reverse, find?_keyed]
  simp only [List.mem_reverse]

/-! ## Keys -/

theorem pairwise_keys (index : Index α) : index.keys.Pairwise (· < ·) :=
  List.pairwise_map.2 index.rising

theorem mem_keys_iff (index : Index α) (k : String) :
    k ∈ index.keys ↔ (index.get? k).isSome := by
  rw [keys, get?, Option.isSome_map, List.find?_isSome, List.mem_map]
  simp only [beq_iff_eq]

/-- The keys of the index of a list are those of its entries. -/
theorem mem_keys_ofList (l : List (String × α)) (k : String) :
    k ∈ (ofList l).keys ↔ k ∈ l.map (·.1) := by
  rw [mem_keys_iff, ofList, get?_foldl_insert, get?_empty, Option.or_none, Option.isSome_map,
    List.find?_isSome, List.mem_map]
  simp only [List.mem_reverse, beq_iff_eq]

/-! ## Sizes -/

theorem length_place_le (merge : α → α → α) (key : String) (value : α)
    (l : List (String × α)) : (place merge key value l).length ≤ l.length + 1 := by
  induction l with
  | nil => exact Nat.le_refl 1
  | cons e rest ih =>
    obtain ⟨k, v⟩ := e
    unfold place
    split
    · exact Nat.le_refl _
    · split
      · exact Nat.le_succ _
      · exact Nat.succ_le_succ ih

/-- An index that is built entry by entry has at most one entry for each. -/
theorem length_foldl_le {f : Index α → String × α → Index α}
    (hf : ∀ index e, (f index e).entries.length ≤ index.entries.length + 1)
    (l : List (String × α)) (index : Index α) :
    (l.foldl f index).entries.length ≤ index.entries.length + l.length := by
  induction l generalizing index with
  | nil => exact Nat.le_refl _
  | cons e rest ih =>
    rw [List.foldl_cons, List.length_cons]
    have hfirst := hf index e
    have hrest := ih (f index e)
    omega

theorem length_ofList_le (l : List (String × α)) : (ofList l).entries.length ≤ l.length := by
  have h := length_foldl_le (f := fun index e => index.insert e.1 e.2)
    (fun index e => length_place_le _ e.1 e.2 index.entries) l empty
  rwa [show (empty : Index α).entries.length = 0 from rfl, Nat.zero_add] at h

theorem length_ofListFirst_le (l : List (String × α)) :
    (ofListFirst l).entries.length ≤ l.length := by
  have h := length_foldl_le (f := fun index e => index.insertNew e.1 e.2)
    (fun index e => length_place_le _ e.1 e.2 index.entries) l empty
  rwa [show (empty : Index α).entries.length = 0 from rfl, Nat.zero_add] at h

end Marginalia.Index
