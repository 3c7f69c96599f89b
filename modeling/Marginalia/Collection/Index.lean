set_option autoImplicit false

/-!
# Indexes

A finite map from texts to values whose entries are kept in strictly rising
order of their keys.  Two indexes with the same look-ups are therefore the same
index, and listing the entries needs no sorting.
-/

namespace Marginalia

/-- A map from texts, held as entries in strictly rising order. -/
structure Index (α : Type) where
  entries : List (String × α)
  rising : entries.Pairwise fun a b => a.1 < b.1

namespace Index

variable {α β : Type}

/-- The index without entries. -/
def empty : Index α := ⟨[], List.Pairwise.nil⟩

instance : Inhabited (Index α) := ⟨empty⟩

/-- Puts an entry in its place; `merge` decides what becomes of a value that is
there already. -/
def place (merge : α → α → α) (key : String) (value : α) :
    List (String × α) → List (String × α)
  | [] => [(key, value)]
  | (k, v) :: rest =>
    if key < k then (key, value) :: (k, v) :: rest
    else if key = k then (k, merge v value) :: rest
    else (k, v) :: place merge key value rest

theorem fst_of_mem_place {merge : α → α → α} {key : String} {value : α}
    {l : List (String × α)} {e : String × α} (h : e ∈ place merge key value l) :
    e.1 = key ∨ ∃ e' ∈ l, e'.1 = e.1 := by
  induction l with
  | nil => simp only [place, List.mem_singleton] at h; exact .inl (by rw [h])
  | cons a rest ih =>
    obtain ⟨k, v⟩ := a
    simp only [place] at h
    split at h
    · rcases List.mem_cons.1 h with rfl | h
      · exact .inl rfl
      · exact .inr ⟨e, h, rfl⟩
    · split at h
      · rcases List.mem_cons.1 h with rfl | h
        · exact .inl (by simp_all)
        · exact .inr ⟨e, List.mem_cons_of_mem _ h, rfl⟩
      · rcases List.mem_cons.1 h with rfl | h
        · exact .inr ⟨(k, v), List.mem_cons_self, rfl⟩
        · rcases ih h with h | ⟨e', he', hk⟩
          · exact .inl h
          · exact .inr ⟨e', List.mem_cons_of_mem _ he', hk⟩

theorem rising_place (merge : α → α → α) (key : String) (value : α) {l : List (String × α)}
    (h : l.Pairwise fun a b => a.1 < b.1) :
    (place merge key value l).Pairwise fun a b => a.1 < b.1 := by
  induction l with
  | nil => simp [place]
  | cons a rest ih =>
    obtain ⟨k, v⟩ := a
    obtain ⟨hk, hrest⟩ := List.pairwise_cons.1 h
    simp only [place]
    split
    · rename_i hlt
      refine List.pairwise_cons.2 ⟨?_, h⟩
      intro b hb
      rcases List.mem_cons.1 hb with rfl | hb
      · exact hlt
      · exact String.lt_trans hlt (hk b hb)
    · split
      · exact List.pairwise_cons.2 ⟨hk, hrest⟩
      · rename_i hlt hne
        refine List.pairwise_cons.2 ⟨?_, ih hrest⟩
        intro b hb
        rcases fst_of_mem_place hb with hb | ⟨b', hb', hb⟩
        · show k < b.1
          grind
        · exact hb ▸ hk b' hb'

/-- The value under a key. -/
def get? (index : Index α) (key : String) : Option α :=
  (index.entries.find? fun e => e.1 == key).map (·.2)

/-- Puts a value under a key, in place of any value that was there. -/
def insert (index : Index α) (key : String) (value : α) : Index α :=
  ⟨place (fun _ new => new) key value index.entries, rising_place _ key value index.rising⟩

/-- Puts a value under a key unless the key is taken. -/
def insertNew (index : Index α) (key : String) (value : α) : Index α :=
  ⟨place (fun old _ => old) key value index.entries, rising_place _ key value index.rising⟩

/-- Takes the entry under a key out. -/
def erase (index : Index α) (key : String) : Index α :=
  ⟨index.entries.filter fun e => e.1 != key, index.rising.filter _⟩

/-- The index of a list of entries, in which a later entry takes the place of an
earlier one with its key. -/
def ofList (entries : List (String × α)) : Index α :=
  entries.foldl (fun index e => index.insert e.1 e.2) empty

/-- The index of a list of entries, in which an earlier entry keeps its place. -/
def ofListFirst (entries : List (String × α)) : Index α :=
  entries.foldl (fun index e => index.insertNew e.1 e.2) empty

/-- The keys in rising order. -/
def keys (index : Index α) : List String := index.entries.map (·.1)

/-- The number of entries. -/
def size (index : Index α) : Nat := index.entries.length

/-- Whether there is no entry. -/
def isEmpty (index : Index α) : Bool := index.entries.isEmpty

/-- Whether a key has a value. -/
def contains (index : Index α) (key : String) : Bool := (index.get? key).isSome

/-- Applies a function to every value. -/
def map (f : α → β) (index : Index α) : Index β :=
  ⟨index.entries.map fun e => (e.1, f e.2), List.pairwise_map.2 index.rising⟩

end Index

/-- The distinct texts of a list in rising order. -/
def distinctSorted (texts : List String) : List String :=
  (Index.ofList (texts.map fun t => (t, ()))).keys

end Marginalia
