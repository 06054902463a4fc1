import Mathlib.Data.List.Pairwise
import Sensitivity.Approximation.Plan
import Sensitivity.Proofs.Action
import Sensitivity.Proofs.Block
import Sensitivity.Proofs.Scalar

/-!
# Groups of requests and their seeds

Requests by the same variable with equal settings are one group (`Plan.mem_requests_of_beq`),
provided that equality of settings is symmetric and transitive. The seeds of a group are the
entries that some request of the group selects. A seed holds exactly the columns that its entry
feeds, in all requests of the group (`Plan.groupSeeds_columns`), and no selected entry is left out
(`Plan.exists_groupSeeds`).
-/

namespace Sensitivity

variable {R : Type}

namespace Request

/-- A selection picks entries of its variable. -/
theorem lt_of_mem_select {name : String} {entries : Option (List Nat)} {sizes : Sizes}
    {is : List Nat} {i : Nat} (h : select (R := R) name entries sizes = .ok is) (hi : i ∈ is) :
    i < (sizes.get? name).getD 0 := by
  unfold select at h
  split at h
  · cases h
  · rename_i size hsize
    cases h
    simpa [hsize] using hi
  · rename_i size picked hsize
    split at h
    · cases h
    · rename_i hnone
      cases h
      have := List.find?_eq_none.1 hnone i hi
      simpa [hsize] using this

section Sizes

variable {sizes sizes' : Sizes} (h : ∀ n, sizes'.get? n = sizes.get? n)

include h

/-- What a request selects depends on what the sizes say of its variables. -/
theorem rows_congr (q : Request R) : q.rows sizes' = q.rows sizes := by
  simp only [rows, select, h]

theorem cols_congr (q : Request R) : q.cols sizes' = q.cols sizes := by
  simp only [cols, select, h]

theorem shape_congr (q : Request R) : q.shape sizes' = q.shape sizes := by
  simp only [shape, q.rows_congr h, q.cols_congr h]

theorem validate_congr [Scalar R] (q : Request R) : q.validate sizes' = q.validate sizes := by
  simp only [validate, q.shape_congr h]

end Sizes

/-- What a valid request satisfies: its settings are valid, it selects entries that exist, and its
pattern fits the block. -/
theorem of_validate [Scalar R] {q : Request R} {sizes : Sizes} (h : q.validate sizes = .ok ()) :
    q.settings.validate = .ok () ∧ ∃ rows cols, q.rows sizes = .ok rows ∧ q.cols sizes = .ok cols ∧
      ∀ p, q.pattern = some p → p.fits rows.length cols.length = true := by
  unfold validate at h
  split at h
  · cases h
  rename_i hsettings
  obtain ⟨⟨n, m⟩, hshape, h⟩ := Except.bind_eq_ok.1 h
  obtain ⟨rows, hrows, hshape⟩ := Except.bind_eq_ok.1 hshape
  obtain ⟨cols, hcols, hshape⟩ := Except.bind_eq_ok.1 hshape
  obtain ⟨rfl, rfl⟩ := Prod.mk.inj (Except.ok.inj hshape)
  refine ⟨hsettings, rows, cols, hrows, hcols, fun p hp => ?_⟩
  simp only [hp] at h
  split at h
  · assumption
  · cases h

end Request

/-- A list with one entry replaced has the new one and otherwise entries that it had. -/
theorem eq_or_mem_of_replaced {α : Type} {before after : List α} {a b x : α}
    (h : x ∈ before ++ b :: after) : x = b ∨ x ∈ before ++ a :: after := by
  rw [List.mem_append, List.mem_cons] at h ⊢
  rcases h with h | h | h
  · exact .inr (.inl h)
  · exact .inl h
  · exact .inr (.inr (.inr h))

namespace Plan

section Groups

variable [Scalar R]

/-- A request joins the first group that it belongs to, or founds one behind all others. -/
theorem addToGroups_cases (i : Nat) (q : Request R) (gs : List (Group R)) :
    (∃ before g after, gs = before ++ g :: after ∧ g.wrt = q.wrt ∧
      (g.settings == q.settings) = true ∧ addToGroups i q gs =
        before ++ { g with requests := g.requests ++ [(i, q)] } :: after) ∨
    ((∀ g ∈ gs, ¬ (g.wrt = q.wrt ∧ (g.settings == q.settings) = true)) ∧
      addToGroups i q gs = gs ++ [⟨q.wrt, q.settings, [(i, q)]⟩]) := by
  induction gs with
  | nil => exact .inr ⟨by simp, rfl⟩
  | cons g rest ih =>
    by_cases hg : g.wrt = q.wrt ∧ (g.settings == q.settings) = true
    · refine .inl ⟨[], g, rest, rfl, hg.1, hg.2, ?_⟩
      simp [addToGroups, hg.1, hg.2]
    · have hstep : addToGroups i q (g :: rest) = g :: addToGroups i q rest := by
        simp only [addToGroups, Bool.and_eq_true, beq_iff_eq, hg, if_false]
      rcases ih with ⟨before, m, after, rfl, hw, hs, he⟩ | ⟨hnone, he⟩
      · exact .inl ⟨g :: before, m, after, rfl, hw, hs, by rw [hstep, he]; rfl⟩
      · refine .inr ⟨?_, by rw [hstep, he]; rfl⟩
        intro m hm
        rcases List.mem_cons.1 hm with rfl | hm
        · exact hg
        · exact hnone m hm

/-- What grouping makes of numbered requests: every one is in a group, with the variable and the
settings of the group, and no two groups could be one. -/
structure Grouped (xs : List (Request R × Nat)) (gs : List (Group R)) : Prop where
  mem : ∀ g ∈ gs, ∀ r q, (r, q) ∈ g.requests → (q, r) ∈ xs ∧ q.wrt = g.wrt ∧
    (q.settings = g.settings ∨ (g.settings == q.settings) = true)
  founder : ∀ g ∈ gs, ∃ r q, (r, q) ∈ g.requests ∧ q.settings = g.settings
  exists_mem : ∀ q r, (q, r) ∈ xs → ∃ g ∈ gs, (r, q) ∈ g.requests
  apart : gs.Pairwise fun g h => ¬ (g.wrt = h.wrt ∧ (g.settings == h.settings) = true)

theorem Grouped.add {xs : List (Request R × Nat)} {gs : List (Group R)} (h : Grouped xs gs)
    (q : Request R) (i : Nat) : Grouped (xs ++ [(q, i)]) (addToGroups i q gs) := by
  rcases addToGroups_cases i q gs with ⟨before, g, after, rfl, hw, hs, he⟩ | ⟨hnone, he⟩ <;> rw [he]
  · have hg : g ∈ before ++ g :: after := by simp
    refine ⟨fun m hm r p hp => ?_, fun m hm => ?_, fun p r hp => ?_, ?_⟩
    · rcases eq_or_mem_of_replaced (a := g) hm with rfl | hm
      · rcases List.mem_append.1 hp with hp | hp
        · obtain ⟨hx, hrest⟩ := h.mem g hg r p hp
          exact ⟨List.mem_append_left _ hx, hrest⟩
        · cases List.mem_singleton.1 hp
          exact ⟨by simp, hw.symm, .inr hs⟩
      · obtain ⟨hx, hrest⟩ := h.mem m hm r p hp
        exact ⟨List.mem_append_left _ hx, hrest⟩
    · rcases eq_or_mem_of_replaced (a := g) hm with rfl | hm
      · obtain ⟨r, p, hp, he⟩ := h.founder g hg
        exact ⟨r, p, List.mem_append_left _ hp, he⟩
      · exact h.founder m hm
    · rcases List.mem_append.1 hp with hp | hp
      · obtain ⟨m, hm, hmem⟩ := h.exists_mem p r hp
        rcases eq_or_mem_of_replaced (a := { g with requests := g.requests ++ [(i, q)] }) hm
          with rfl | hm
        · exact ⟨_, List.mem_append_right _ List.mem_cons_self, List.mem_append_left _ hmem⟩
        · exact ⟨m, hm, hmem⟩
      · cases List.mem_singleton.1 hp
        exact ⟨_, List.mem_append_right _ List.mem_cons_self, by simp⟩
    · -- the group that grew keeps its variable and its settings
      have hapart := h.apart
      simp only [List.pairwise_append, List.pairwise_cons, List.mem_cons, forall_eq_or_imp]
        at hapart ⊢
      exact hapart
  · refine ⟨fun m hm r p hp => ?_, fun m hm => ?_, fun p r hp => ?_, ?_⟩
    · rcases List.mem_append.1 hm with hm | hm
      · obtain ⟨hx, hrest⟩ := h.mem m hm r p hp
        exact ⟨List.mem_append_left _ hx, hrest⟩
      · cases List.mem_singleton.1 hm
        cases List.mem_singleton.1 hp
        exact ⟨by simp, rfl, .inl rfl⟩
    · rcases List.mem_append.1 hm with hm | hm
      · exact h.founder m hm
      · cases List.mem_singleton.1 hm
        exact ⟨i, q, by simp, rfl⟩
    · rcases List.mem_append.1 hp with hp | hp
      · obtain ⟨m, hm, hmem⟩ := h.exists_mem p r hp
        exact ⟨m, List.mem_append_left _ hm, hmem⟩
      · cases List.mem_singleton.1 hp
        exact ⟨_, List.mem_append_right _ List.mem_cons_self, by simp⟩
    · refine List.pairwise_append.2 ⟨h.apart, List.pairwise_singleton _ _, fun m hm g hg => ?_⟩
      cases List.mem_singleton.1 hg
      exact hnone m hm

/-- The groups of a list of requests. -/
theorem grouped_groups (requests : List (Request R)) :
    Grouped requests.zipIdx (groups requests) := by
  have h (done rest : List (Request R × Nat)) (gs : List (Group R)) (hg : Grouped done gs) :
      Grouped (done ++ rest) (rest.foldl (fun gs x => addToGroups x.2 x.1 gs) gs) := by
    induction rest generalizing done gs with
    | nil => simpa using hg
    | cons x rest ih =>
      obtain ⟨q, i⟩ := x
      have := ih (done ++ [(q, i)]) _ (hg.add q i)
      simpa using this
  exact h [] requests.zipIdx [] ⟨by simp, by simp, by simp, .nil⟩

variable {requests : List (Request R)}

/-- The requests of a group are numbered as they were given. -/
theorem getElem?_of_mem_group {g : Group R} (hg : g ∈ groups requests) {r : Nat} {q : Request R}
    (h : (r, q) ∈ g.requests) : requests[r]? = some q :=
  List.mem_zipIdx_iff_getElem?.1 ((grouped_groups requests).mem g hg r q h).1

/-- A group has the variable of a request, and its settings are those of one. -/
theorem exists_founder {g : Group R} (hg : g ∈ groups requests) :
    ∃ q ∈ requests, q.wrt = g.wrt ∧ q.settings = g.settings := by
  obtain ⟨r, q, hq, hs⟩ := (grouped_groups requests).founder g hg
  obtain ⟨-, hw, -⟩ := (grouped_groups requests).mem g hg r q hq
  exact ⟨q, List.mem_of_getElem? (getElem?_of_mem_group hg hq), hw, hs⟩

/-- **Equal settings, one group**: a request by the variable of a group with settings equal to
those of the group is in the group. -/
theorem mem_requests_of_beq [LawfulScalar R] {g : Group R} (hg : g ∈ groups requests) {r : Nat}
    {q : Request R} (hq : requests[r]? = some q) (hw : q.wrt = g.wrt)
    (hs : (g.settings == q.settings) = true) : (r, q) ∈ g.requests := by
  have hgroups := grouped_groups requests
  obtain ⟨m, hm, hmem⟩ := hgroups.exists_mem q r (List.mem_zipIdx_iff_getElem?.2 hq)
  obtain ⟨-, hmw, hms⟩ := hgroups.mem m hm r q hmem
  have hgm : (g.settings == m.settings) = true := by
    rcases hms with hms | hms
    · exact hms ▸ hs
    · exact BEq.trans hs (BEq.symm hms)
  have hsymm : Std.Symm fun g h : Group R =>
      ¬ (g.wrt = h.wrt ∧ (g.settings == h.settings) = true) :=
    ⟨fun _ _ h hba => h ⟨hba.1.symm, BEq.symm hba.2⟩⟩
  by_contra hnot
  have hne : g ≠ m := by
    rintro rfl
    exact hnot hmem
  exact hgroups.apart.forall hg hm hne ⟨hw.symm.trans hmw, hgm⟩

end Groups

section Seeds

/-- A column that an entry of the variable of a group feeds: the column of a request of the group
that selects the entry. -/
def Group.Feeds (sizes : Sizes) (g : Group R) (i : Nat) (c : Column) : Prop :=
  ∃ q cols, (c.request, q) ∈ g.requests ∧ q.cols sizes = .ok cols ∧ cols[c.col]? = some i

variable {sizes : Sizes} {g : Group R} {seeds : List Seed}

/-- The seeds of a group, from the columns of all its requests. -/
theorem groupSeeds_eq_ok (h : groupSeeds sizes g = .ok seeds) :
    ∃ columns : List (Nat × Column),
      (∀ i c, (i, c) ∈ columns ↔ g.Feeds sizes i c) ∧
      seeds = (List.range ((sizes.get? g.wrt).getD 0)).filterMap fun i =>
        match columns.filterMap fun c => if c.1 = i then some c.2 else none with
        | [] => none
        | cs => some ⟨g.wrt, i, cs⟩ := by
  simp only [groupSeeds, Except.bind_eq_ok] at h
  obtain ⟨columns, hcolumns, h⟩ := h
  cases h
  refine ⟨columns.flatten, fun i c => ?_, rfl⟩
  simp only [List.mem_flatten, Except.mem_mapM hcolumns, Except.bind_eq_ok, Group.Feeds]
  constructor
  · rintro ⟨l, ⟨⟨r, q⟩, hq, cols, hcols, hl⟩, hc⟩
    cases hl
    obtain ⟨k, hk, he⟩ := List.mem_mapIdx.1 hc
    cases he
    exact ⟨q, cols, hq, hcols, List.getElem?_eq_getElem hk⟩
  · rintro ⟨q, cols, hq, hcols, hk⟩
    obtain ⟨hlt, rfl⟩ := List.getElem?_eq_some_iff.1 hk
    exact ⟨_, ⟨⟨c.request, q⟩, hq, cols, hcols, rfl⟩, List.mem_mapIdx.2 ⟨c.col, hlt, rfl⟩⟩

/-- **A seed holds exactly the columns that its entry feeds.** -/
theorem groupSeeds_columns (h : groupSeeds sizes g = .ok seeds) {s : Seed} (hs : s ∈ seeds) :
    s.wrt = g.wrt ∧ ∀ c, c ∈ s.columns ↔ g.Feeds sizes s.index c := by
  obtain ⟨columns, hcolumns, rfl⟩ := groupSeeds_eq_ok h
  obtain ⟨i, -, hi⟩ := List.mem_filterMap.1 hs
  split at hi
  · cases hi
  · cases hi
    refine ⟨rfl, fun c => ?_⟩
    simp [← hcolumns]

/-- No entry that feeds a column is left out. -/
theorem exists_groupSeeds (h : groupSeeds sizes g = .ok seeds) {i : Nat} {c : Column}
    (hc : g.Feeds sizes i c) (hi : i < (sizes.get? g.wrt).getD 0) :
    ∃ s ∈ seeds, s.index = i := by
  obtain ⟨columns, hcolumns, rfl⟩ := groupSeeds_eq_ok h
  have hmem : c ∈ columns.filterMap fun c => if c.1 = i then some c.2 else none := by
    simpa using (hcolumns i c).2 hc
  refine ⟨⟨g.wrt, i, columns.filterMap fun c => if c.1 = i then some c.2 else none⟩,
    List.mem_filterMap.2 ⟨i, List.mem_range.2 hi, ?_⟩, rfl⟩
  split
  · rename_i hnil
    rw [hnil] at hmem
    cases hmem
  · rfl

end Seeds

end Plan

end Sensitivity
