/-!
# Tables in order of first insertion

A finite map that lists its keys in the order in which they were first inserted;
writing to a key that is present keeps its place. Keys are distinct by
construction (`Table.nodup`).
-/

namespace Sensitivity

/-- A finite map with an order on its keys. -/
structure Table (κ α : Type) where
  entries : List (κ × α)
  nodup : (entries.map Prod.fst).Nodup

namespace Table

variable {κ α β : Type}

/-- The table without entries. -/
def empty : Table κ α := ⟨[], List.nodup_nil⟩

instance : EmptyCollection (Table κ α) := ⟨empty⟩

instance : Inhabited (Table κ α) := ⟨empty⟩

/-- The keys in order. -/
def keys (t : Table κ α) : List κ := t.entries.map Prod.fst

/-- The values in the order of their keys. -/
def values (t : Table κ α) : List α := t.entries.map Prod.snd

/-- The number of entries. -/
def size (t : Table κ α) : Nat := t.entries.length

section Keyed

variable [DecidableEq κ]

/-- The value of the first entry at a key. -/
def find (k : κ) : List (κ × α) → Option α
  | [] => none
  | e :: rest => if e.1 = k then some e.2 else find k rest

/-- The value at a key. -/
def get? (t : Table κ α) (k : κ) : Option α := find k t.entries

/-- Whether a key is present. -/
def contains (t : Table κ α) (k : κ) : Bool := t.keys.contains k

/-- The place of a key in the order. -/
def indexOf? (t : Table κ α) (k : κ) : Option Nat := t.keys.idxOf? k

/-- Writes at a key: in place when it is present, else behind all others. -/
def put (k : κ) (v : α) : List (κ × α) → List (κ × α)
  | [] => [(k, v)]
  | e :: rest => if e.1 = k then (k, v) :: rest else e :: put k v rest

/-- A write adds at most its own key, behind all others. -/
theorem map_fst_put (k : κ) (v : α) (es : List (κ × α)) :
    (put k v es).map Prod.fst =
      if k ∈ es.map Prod.fst then es.map Prod.fst else es.map Prod.fst ++ [k] := by
  induction es with
  | nil => simp [put]
  | cons e rest ih =>
    by_cases h : e.1 = k
    · simp [put, h]
    · have h' : ¬ k = e.1 := fun hk => h hk.symm
      simp only [put, h, if_false, List.map_cons, ih, List.mem_cons, h', false_or]
      split <;> simp

/-- The table after a write. -/
def insert (t : Table κ α) (k : κ) (v : α) : Table κ α where
  entries := put k v t.entries
  nodup := by
    rw [map_fst_put]
    split
    · exact t.nodup
    · rename_i h
      exact List.nodup_append.2 ⟨t.nodup, by simp, by rintro a ha b hb rfl; simp_all⟩

/-- The keys after a write. -/
theorem keys_insert (t : Table κ α) (k : κ) (v : α) :
    (t.insert k v).keys = if k ∈ t.keys then t.keys else t.keys ++ [k] :=
  map_fst_put k v t.entries

/-- A write is read back at its key and nowhere else. -/
theorem get?_insert (t : Table κ α) (k k' : κ) (v : α) :
    (t.insert k v).get? k' = if k' = k then some v else t.get? k' := by
  simp only [get?, insert]
  induction t.entries with
  | nil => simp only [put, find, eq_comm]
  | cons e rest ih =>
    by_cases he : e.1 = k
    · subst he
      by_cases h : e.1 = k'
      · simp [put, find, h]
      · simp [put, find, h, Ne.symm h]
    · by_cases h : e.1 = k'
      · subst h
        simp [put, find, he]
      · simp [put, find, he, h, ih]

/-- Writes a list of entries, from the left. -/
def insertAll (t : Table κ α) (es : List (κ × α)) : Table κ α :=
  es.foldl (fun t e => t.insert e.1 e.2) t

/-- The table of a list of entries: a repeated key keeps its first place and its
last value. -/
def ofList (es : List (κ × α)) : Table κ α := empty.insertAll es

end Keyed

/-- Changes every value; keys and order stay. -/
def map (f : κ → α → β) (t : Table κ α) : Table κ β where
  entries := t.entries.map fun e => (e.1, f e.1 e.2)
  nodup := by
    have h : (t.entries.map fun e => (e.1, f e.1 e.2)).map Prod.fst = t.entries.map Prod.fst := by
      simp [Function.comp_def]
    rw [h]
    exact t.nodup

/-- Equal up to the order of the keys. -/
def sameEntries [DecidableEq κ] [BEq α] (t u : Table κ α) : Bool :=
  t.size == u.size && t.entries.all fun e =>
    match u.get? e.1 with
    | some v => e.2 == v
    | none => false

end Table

end Sensitivity
