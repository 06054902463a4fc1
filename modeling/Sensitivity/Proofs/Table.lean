import Mathlib.Data.List.Nodup
import Mathlib.Data.List.Perm.Subperm
import Sensitivity.Table

/-!
# Reading tables

What a table holds after it was changed or built: looking up a key commutes with changing every
value (`Table.get?_map`), and a table built from entries with distinct keys holds exactly these
(`Table.get?_ofList`). Tables of one size in which each entry of one is found in the other agree at
every key (`Table.get?_eq_of_sameEntries`).
-/

namespace Sensitivity

/-- Dropping repetitions leaves none. -/
theorem nodup_eraseDups {α : Type} [BEq α] [LawfulBEq α] (xs : List α) : xs.eraseDups.Nodup := by
  induction h : xs.length using Nat.strongRecOn generalizing xs with
  | ind n ih =>
    cases xs with
    | nil => exact List.nodup_nil
    | cons x rest =>
      rw [List.eraseDups_cons]
      refine List.nodup_cons.2 ⟨by simp [List.mem_eraseDups], ih _ ?_ _ rfl⟩
      have := List.length_filter_le (fun b => !b == x) rest
      simp only [List.length_cons] at h
      omega

namespace Table

variable {κ α β : Type} [DecidableEq κ]

omit [DecidableEq κ] in
theorem size_eq_length_values (t : Table κ α) : t.size = t.values.length := by
  simp [size, values]

theorem find_eq_none_iff {k : κ} {es : List (κ × α)} :
    find k es = none ↔ k ∉ es.map Prod.fst := by
  induction es with
  | nil => simp [find]
  | cons e rest ih =>
    by_cases h : e.1 = k
    · simp [find, h]
    · simp [find, h, ih, Ne.symm h]

/-- What is found is an entry. -/
theorem mem_of_find {k : κ} {v : α} {es : List (κ × α)} (h : find k es = some v) : (k, v) ∈ es := by
  induction es with
  | nil => cases h
  | cons e rest ih =>
    by_cases he : e.1 = k
    · simp only [find, he, if_true, Option.some.injEq] at h
      exact List.mem_cons.2 (.inl (by rw [← he, ← h]))
    · simp only [find, he, if_false] at h
      exact List.mem_cons_of_mem _ (ih h)

/-- With distinct keys, every entry is found. -/
theorem find_of_mem {k : κ} {v : α} {es : List (κ × α)} (hn : (es.map Prod.fst).Nodup)
    (h : (k, v) ∈ es) : find k es = some v := by
  cases hf : find k es with
  | none => exact absurd (List.mem_map_of_mem h) (find_eq_none_iff.1 hf)
  | some w =>
    have he : (k, w) = (k, v) := List.inj_on_of_nodup_map hn (mem_of_find hf) h rfl
    rw [(Prod.mk.inj he).2]

theorem find_append (k : κ) (es fs : List (κ × α)) :
    find k (es ++ fs) = (find k es).or (find k fs) := by
  induction es with
  | nil => rfl
  | cons e rest ih =>
    by_cases h : e.1 = k
    · simp [find, h]
    · simp [find, h, ih]

/-- With distinct keys, the order of the entries does not matter. -/
theorem find_of_perm {es fs : List (κ × α)} (hn : (es.map Prod.fst).Nodup) (h : es.Perm fs)
    (k : κ) : find k es = find k fs := by
  have hn' := (h.map Prod.fst).nodup_iff.1 hn
  refine Option.ext fun v => ⟨fun hv => ?_, fun hv => ?_⟩
  · exact find_of_mem hn' (h.mem_iff.1 (mem_of_find hv))
  · exact find_of_mem hn (h.mem_iff.2 (mem_of_find hv))

theorem get?_map (f : κ → α → β) (t : Table κ α) (k : κ) :
    (t.map f).get? k = (t.get? k).map (f k) := by
  simp only [get?, map]
  induction t.entries with
  | nil => rfl
  | cons e rest ih =>
    by_cases h : e.1 = k
    · subst h
      simp [find]
    · simp [find, h, ih]

@[simp] theorem get?_empty (k : κ) : (∅ : Table κ α).get? k = none := rfl

theorem get?_insertAll (t : Table κ α) {es : List (κ × α)} (hn : (es.map Prod.fst).Nodup) (k : κ) :
    (t.insertAll es).get? k = match find k es with
      | some v => some v
      | none => t.get? k := by
  induction es generalizing t with
  | nil => rfl
  | cons e rest ih =>
    obtain ⟨hnot, hrest⟩ := List.nodup_cons.1 hn
    have hstep : (t.insertAll (e :: rest)).get? k = ((t.insert e.1 e.2).insertAll rest).get? k := rfl
    rw [hstep, ih _ hrest, get?_insert]
    by_cases h : e.1 = k
    · subst h
      simp [find, find_eq_none_iff.2 hnot]
    · simp [find, h, Ne.symm h]

/-- A table built from entries with distinct keys holds exactly these. -/
theorem get?_ofList {es : List (κ × α)} (hn : (es.map Prod.fst).Nodup) (k : κ) :
    (ofList es).get? k = find k es := by
  have h : (ofList es).get? k = ((∅ : Table κ α).insertAll es).get? k := rfl
  rw [h, get?_insertAll _ hn]
  cases find k es <;> rfl

/-- A new key goes behind all others. -/
theorem entries_insert {t : Table κ α} {k : κ} (h : k ∉ t.keys) (v : α) :
    (t.insert k v).entries = t.entries ++ [(k, v)] := by
  have hput (es : List (κ × α)) (h : k ∉ es.map Prod.fst) : put k v es = es ++ [(k, v)] := by
    induction es with
    | nil => rfl
    | cons e rest ih =>
      rw [List.map_cons, List.mem_cons, not_or] at h
      rw [put, if_neg (Ne.symm h.1), ih h.2]
      rfl
  exact hput t.entries h

/-- A table built from entries with distinct keys lists exactly these. -/
theorem entries_ofList {es : List (κ × α)} (hn : (es.map Prod.fst).Nodup) :
    (ofList es).entries = es := by
  have h (t : Table κ α) (es : List (κ × α)) (hn : ((t.entries ++ es).map Prod.fst).Nodup) :
      (t.insertAll es).entries = t.entries ++ es := by
    induction es generalizing t with
    | nil => exact (List.append_nil _).symm
    | cons e rest ih =>
      have hnot : e.1 ∉ t.keys := by
        rw [List.map_append, List.nodup_append] at hn
        exact fun hmem => hn.2.2 _ hmem _ (by simp) rfl
      have hstep : t.insertAll (e :: rest) = (t.insert e.1 e.2).insertAll rest := rfl
      rw [hstep, ih _ (by rw [entries_insert hnot]; simpa using hn), entries_insert hnot]
      simp
  exact h ∅ es hn

/-- The place of a key is that of its entry. -/
theorem indexOf?_eq_some_iff {t : Table κ α} {k : κ} {i : Nat} :
    t.indexOf? k = some i ↔ ∃ v, t.entries[i]? = some (k, v) := by
  have hkey (j : Nat) (k' : κ) : t.keys[j]? = some k' ↔ ∃ v, t.entries[j]? = some (k', v) := by
    simp only [keys, List.getElem?_map, Option.map_eq_some_iff, Prod.exists]
    constructor
    · rintro ⟨k'', v, he, rfl⟩
      exact ⟨v, he⟩
    · rintro ⟨v, he⟩
      exact ⟨k', v, he, rfl⟩
  rw [← hkey]
  constructor
  · intro h
    obtain ⟨hlt, he, -⟩ := List.findIdx?_eq_some_iff_getElem.1 h
    rw [List.getElem?_eq_getElem hlt, eq_of_beq he]
  · intro h
    obtain ⟨hlt, rfl⟩ := List.getElem?_eq_some_iff.1 h
    refine List.findIdx?_eq_some_iff_getElem.2 ⟨hlt, beq_self_eq_true _, fun j hj he => ?_⟩
    have hnodup : t.keys.Nodup := t.nodup
    exact absurd ((List.Nodup.getElem_inj_iff hnodup).1 (eq_of_beq he)) (by omega)

theorem get?_eq_some_iff (t : Table κ α) (k : κ) (v : α) :
    t.get? k = some v ↔ (k, v) ∈ t.entries :=
  ⟨mem_of_find, find_of_mem t.nodup⟩

/-- The value at the place of a key. -/
theorem getElem?_values_of_indexOf? {t : Table κ α} {k : κ} {i : Nat} {v : α}
    (hi : t.indexOf? k = some i) (hv : t.get? k = some v) : t.values[i]? = some v := by
  obtain ⟨w, hw⟩ := indexOf?_eq_some_iff.1 hi
  have hget := (get?_eq_some_iff t k w).2 (List.mem_of_getElem? hw)
  obtain rfl := Option.some.inj (hv.symm.trans hget)
  simp [values, hw]

/-- A key is found where it has a place. -/
theorem get?_eq_some_iff_indexOf? {t : Table κ α} {k : κ} {v : α} :
    t.get? k = some v ↔ ∃ i, t.indexOf? k = some i ∧ t.values[i]? = some v := by
  constructor
  · intro h
    obtain ⟨i, hi⟩ := List.mem_iff_getElem?.1 ((get?_eq_some_iff t k v).1 h)
    have hindex := indexOf?_eq_some_iff.2 ⟨v, hi⟩
    exact ⟨i, hindex, getElem?_values_of_indexOf? hindex h⟩
  · rintro ⟨i, hi, hv⟩
    obtain ⟨w, hw⟩ := indexOf?_eq_some_iff.1 hi
    have hget := (get?_eq_some_iff t k w).2 (List.mem_of_getElem? hw)
    rw [getElem?_values_of_indexOf? hi hget] at hv
    cases hv
    exact hget

theorem get?_eq_none_iff (t : Table κ α) (k : κ) : t.get? k = none ↔ k ∉ t.keys := find_eq_none_iff

theorem sameEntries_self [BEq α] [LawfulBEq α] (t : Table κ α) : t.sameEntries t = true := by
  refine Bool.and_eq_true_iff.2 ⟨beq_self_eq_true _, List.all_eq_true.2 fun e he => ?_⟩
  rw [(get?_eq_some_iff t e.1 e.2).2 he]
  exact beq_self_eq_true _

/-- Equality up to the order of the keys is equality of what is found. -/
theorem get?_eq_of_sameEntries [BEq α] [LawfulBEq α] {t u : Table κ α}
    (h : t.sameEntries u = true) (k : κ) : t.get? k = u.get? k := by
  obtain ⟨hsize, hall⟩ := Bool.and_eq_true_iff.1 h
  have hfound {k : κ} {v : α} (hv : t.get? k = some v) : u.get? k = some v := by
    have he := List.all_eq_true.1 hall (k, v) ((get?_eq_some_iff t k v).1 hv)
    dsimp only at he
    split at he
    · rename_i w hw
      rw [hw, eq_of_beq he]
    · cases he
  cases hk : t.get? k with
  | some v => exact (hfound hk).symm
  | none =>
    -- the keys of `t` are as many as those of `u` and all among them
    have hsub : t.keys ⊆ u.keys := fun k' hk' => by
      obtain ⟨⟨_, v⟩, he, rfl⟩ := List.mem_map.1 hk'
      exact List.mem_map_of_mem ((get?_eq_some_iff _ _ _).1 (hfound ((get?_eq_some_iff _ _ v).2 he)))
    have hlen : u.keys.length ≤ t.keys.length := by
      have : t.entries.length = u.entries.length := eq_of_beq hsize
      simp [keys, this]
    have hperm := (List.Nodup.subperm t.nodup hsub).perm_of_length_le hlen
    have hnot := (get?_eq_none_iff t k).1 hk
    exact ((get?_eq_none_iff u k).2 fun hu => hnot (hperm.mem_iff.2 hu)).symm

/-- A table built from entries has their keys, and what it holds is among them. -/
theorem mem_keys_ofList {es : List (κ × α)} {k : κ} :
    k ∈ (ofList es).keys ↔ k ∈ es.map Prod.fst := by
  have h (t : Table κ α) : k ∈ (t.insertAll es).keys ↔ k ∈ t.keys ∨ k ∈ es.map Prod.fst := by
    induction es generalizing t with
    | nil => simp [insertAll]
    | cons e rest ih =>
      have hstep : t.insertAll (e :: rest) = (t.insert e.1 e.2).insertAll rest := rfl
      have hinsert : k ∈ (t.insert e.1 e.2).keys ↔ k ∈ t.keys ∨ k = e.1 := by
        rw [keys_insert]
        split <;> simp_all
      rw [hstep, ih, hinsert, List.map_cons, List.mem_cons, or_assoc]
  have hempty : k ∉ (∅ : Table κ α).keys := List.not_mem_nil
  exact (h ∅).trans (or_iff_right hempty)

theorem mem_of_get?_ofList {es : List (κ × α)} {k : κ} {v : α} (h : (ofList es).get? k = some v) :
    (k, v) ∈ es := by
  have hall (t : Table κ α) (es : List (κ × α)) (h : (t.insertAll es).get? k = some v) :
      t.get? k = some v ∨ (k, v) ∈ es := by
    induction es generalizing t with
    | nil => exact .inl h
    | cons e rest ih =>
      rcases ih (t.insert e.1 e.2) h with h | h
      · rw [get?_insert] at h
        split at h
        · rename_i he
          exact .inr (List.mem_cons.2 (.inl (Prod.ext he (Option.some.inj h).symm)))
        · exact .inl h
      · exact .inr (List.mem_cons_of_mem e h)
  exact (hall ∅ es h).resolve_left (by simp)

/-- Tables with the same keys in the same order that hold the same are equal. -/
theorem ext_of_keys {t u : Table κ α} (hkeys : t.keys = u.keys) (h : ∀ k, t.get? k = u.get? k) :
    t = u := by
  have hentries (es fs : List (κ × α)) (hn : (es.map Prod.fst).Nodup)
      (hkeys : es.map Prod.fst = fs.map Prod.fst) (h : ∀ k, find k es = find k fs) : es = fs := by
    refine List.ext_getElem (by simpa using congrArg List.length hkeys) fun i hi hi' => ?_
    have hkey : es[i].1 = fs[i].1 := by
      have := congrArg (·[i]?) hkeys
      simpa [hi, hi'] using this
    have hfind : find es[i].1 es = some es[i].2 := find_of_mem hn (List.getElem_mem hi)
    have hfind' : find fs[i].1 fs = some fs[i].2 := find_of_mem (hkeys ▸ hn) (List.getElem_mem hi')
    rw [h, hkey, hfind'] at hfind
    exact Prod.ext hkey (Option.some.inj hfind).symm
  obtain ⟨es, hn⟩ := t
  obtain ⟨fs, hn'⟩ := u
  obtain rfl := hentries es fs hn hkeys h
  rfl

end Table

end Sensitivity
