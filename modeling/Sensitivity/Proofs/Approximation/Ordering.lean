import Mathlib.Data.List.Pairwise
import Sensitivity.Proofs.Approximation.Grouping

/-!
# Column order

The columns of a plan have an order: the variable that is requested first comes first, and the
entries of a variable follow each other (`Seed.Precedes`). Among requests with equal settings this
is the order in which the groups and their seeds are found. A group is founded by a request that
came before all requests of the groups behind it (`Plan.ordered_groups`), so that its variable is
requested first (`Plan.firstRequest_lt`), and the seeds of a group ascend
(`Plan.sorted_groupSeeds`). Hence the seeds that are coloured together come in column order
(`Plan.sorted_joining`).
-/

namespace Sensitivity

variable {R : Type} [Scalar R]

/-- The number of the first request by a variable with these settings. -/
def Plan.firstRequest (requests : List (Request R)) (σ : Settings R) (name : String) : Nat :=
  requests.findIdx fun q => q.wrt == name && σ == q.settings

/-- Column order among requests with these settings: by the first request for the variable, then by
the entry. -/
def Seed.Precedes (requests : List (Request R)) (σ : Settings R) (s t : Seed) : Prop :=
  Plan.firstRequest requests σ s.wrt < Plan.firstRequest requests σ t.wrt ∨
    s.wrt = t.wrt ∧ s.index < t.index

instance Seed.decidablePrecedes (requests : List (Request R)) (σ : Settings R) (s t : Seed) :
    Decidable (s.Precedes requests σ t) :=
  inferInstanceAs (Decidable (_ ∨ _))

namespace Plan

section Groups

/-- What grouping owes to the order of the requests: the numbers of all requests so far are below
`n`, and a group has a request that came before all requests of the groups behind it. -/
structure Ordered (n : Nat) (gs : List (Group R)) : Prop where
  lt : ∀ g ∈ gs, ∀ x ∈ g.requests, x.1 < n
  ne_nil : ∀ g ∈ gs, g.requests ≠ []
  ordered : gs.Pairwise fun g h => ∃ x ∈ g.requests, ∀ y ∈ h.requests, x.1 < y.1

/-- The next request founds the last group, or joins one without changing the order. -/
theorem Ordered.add {n : Nat} {gs : List (Group R)} (h : Ordered n gs) (q : Request R) :
    Ordered (n + 1) (addToGroups n q gs) := by
  have hlt (g : Group R) (hg : g ∈ gs) (x : Nat × Request R) (hx : x ∈ g.requests) : x.1 < n + 1 :=
    Nat.lt_succ_of_lt (h.lt g hg x hx)
  rcases addToGroups_cases n q gs with ⟨before, g, after, rfl, -, -, he⟩ | ⟨-, he⟩ <;> rw [he]
  · obtain ⟨hbefore, hrest, hcross⟩ := List.pairwise_append.1 h.ordered
    obtain ⟨hafter, hrest⟩ := List.pairwise_cons.1 hrest
    have hg : g ∈ before ++ g :: after := by simp
    refine ⟨?_, ?_, ?_⟩
    · intro m hm
      rcases eq_or_mem_of_replaced (a := g) hm with rfl | hm
      · exact List.forall_mem_append.2 ⟨hlt g hg, by simp⟩
      · exact hlt m hm
    · intro m hm
      rcases eq_or_mem_of_replaced (a := g) hm with rfl | hm
      · simp
      · exact h.ne_nil m hm
    · refine List.pairwise_append.2 ⟨hbefore, List.pairwise_cons.2 ⟨fun m hm => ?_, hrest⟩,
        fun b hb => List.forall_mem_cons.2 ⟨?_, fun m hm => ?_⟩⟩
      · obtain ⟨x, hx, hxm⟩ := hafter m hm
        exact ⟨x, List.mem_append_left _ hx, hxm⟩
      · obtain ⟨x, hx, hxg⟩ := hcross b hb g List.mem_cons_self
        refine ⟨x, hx, List.forall_mem_append.2 ⟨hxg, List.forall_mem_singleton.2 ?_⟩⟩
        exact h.lt b (List.mem_append_left _ hb) x hx
      · exact hcross b hb m (List.mem_cons_of_mem _ hm)
  · refine ⟨List.forall_mem_append.2 ⟨hlt, by simp⟩,
      List.forall_mem_append.2 ⟨h.ne_nil, by simp⟩, ?_⟩
    refine List.pairwise_append.2 ⟨h.ordered, List.pairwise_singleton _ _,
      fun g hg => List.forall_mem_singleton.2 ?_⟩
    obtain ⟨x, hx⟩ := List.exists_mem_of_ne_nil _ (h.ne_nil g hg)
    exact ⟨x, hx, List.forall_mem_singleton.2 (h.lt g hg x hx)⟩

/-- **Groups come in the order of their first requests.** -/
theorem ordered_groups (requests : List (Request R)) :
    Ordered requests.length (groups requests) := by
  have h (n : Nat) (rest : List (Request R)) (gs : List (Group R)) (hgs : Ordered n gs) :
      Ordered (n + rest.length)
        ((rest.zipIdx n).foldl (fun gs x => addToGroups x.2 x.1 gs) gs) := by
    induction rest generalizing n gs with
    | nil => exact hgs
    | cons q rest ih =>
      rw [List.length_cons, Nat.add_comm rest.length, ← Nat.add_assoc]
      exact ih (n + 1) _ (hgs.add q)
  have := h 0 requests [] ⟨by simp, by simp, .nil⟩
  rwa [Nat.zero_add] at this

end Groups

section Order

variable {requests : List (Request R)} {sizes : Sizes}

/-- A request by a variable with these settings is not before the first one. -/
theorem firstRequest_le {σ : Settings R} {r : Nat} {q : Request R} (hq : requests[r]? = some q)
    (hs : (σ == q.settings) = true) : firstRequest requests σ q.wrt ≤ r := by
  obtain ⟨hlt, rfl⟩ := List.getElem?_eq_some_iff.1 hq
  by_contra hnot
  have := List.not_of_lt_findIdx (Nat.lt_of_not_le hnot)
  simp [hs] at this

variable [LawfulScalar R]

/-- The first request by the variable of a group is in the group. -/
theorem exists_firstRequest {σ : Settings R} {g : Group R} (hg : g ∈ groups requests)
    (hs : (g.settings == σ) = true) :
    ∃ q, (firstRequest requests σ g.wrt, q) ∈ g.requests := by
  obtain ⟨p, hp, hpw, hps⟩ := exists_founder hg
  have hlt : firstRequest requests σ g.wrt < requests.length :=
    List.findIdx_lt_length_of_exists ⟨p, hp, by simp [hpw, hps, BEq.symm hs]⟩
  have hfound := List.findIdx_getElem (w := hlt)
  obtain ⟨hw, hσ⟩ := Bool.and_eq_true_iff.1 hfound
  exact ⟨_, mem_requests_of_beq hg (List.getElem?_eq_getElem hlt) (eq_of_beq hw) (BEq.trans hs hσ)⟩

/-- **The variable of an earlier group is requested first**, where both have the same settings. -/
theorem firstRequest_lt {σ : Settings R} {g h : Group R} (hg : g ∈ groups requests)
    (hh : h ∈ groups requests) (hgs : (g.settings == σ) = true) (hhs : (h.settings == σ) = true)
    (horder : ∃ x ∈ g.requests, ∀ y ∈ h.requests, x.1 < y.1) :
    firstRequest requests σ g.wrt < firstRequest requests σ h.wrt := by
  obtain ⟨⟨r, q⟩, hx, hlt⟩ := horder
  obtain ⟨p, hp⟩ := exists_firstRequest hh hhs
  obtain ⟨-, hw, hqs⟩ := (grouped_groups requests).mem g hg r q hx
  have hσ : (σ == q.settings) = true := by
    rcases hqs with hqs | hqs
    · exact hqs ▸ BEq.symm hgs
    · exact BEq.trans (BEq.symm hgs) hqs
  exact Nat.lt_of_le_of_lt (hw ▸ firstRequest_le (getElem?_of_mem_group hg hx) hσ) (hlt _ hp)

omit [Scalar R] [LawfulScalar R] in
/-- The seeds of a group ascend. -/
theorem sorted_groupSeeds {g : Group R} {seeds : List Seed} (h : groupSeeds sizes g = .ok seeds) :
    seeds.Pairwise fun s t => s.index < t.index := by
  obtain ⟨columns, -, rfl⟩ := groupSeeds_eq_ok h
  refine List.pairwise_filterMap.2 (List.pairwise_lt_range.imp fun {i j} hij s hs t ht => ?_)
  split at hs
  · cases hs
  split at ht
  · cases ht
  cases hs
  cases ht
  exact hij

/-- **The seeds that are coloured together come in column order.** -/
theorem sorted_joining {gs : List (Group R × List Seed)}
    (hgroups : gs.map Prod.fst = groups requests)
    (hseeds : ∀ x ∈ gs, groupSeeds sizes x.1 = .ok x.2) (g : Group R) :
    (joining g gs).Pairwise (Seed.Precedes requests g.settings) := by
  have hordered := List.pairwise_map.1 (hgroups ▸ (ordered_groups requests).ordered)
  have hmem (x : Group R × List Seed) (hx : x ∈ gs) : x.1 ∈ groups requests :=
    hgroups ▸ List.mem_map_of_mem hx
  refine List.pairwise_flatMap.2 ⟨fun x hx => ?_, ?_⟩
  · have hx := hseeds x (List.mem_filter.1 hx).1
    refine (sorted_groupSeeds hx).imp_of_mem fun {s t} hs ht hst => .inr ⟨?_, hst⟩
    rw [(groupSeeds_columns hx hs).1, (groupSeeds_columns hx ht).1]
  · refine (hordered.filter _).imp_of_mem fun {x y} hx hy hxy s hs t ht => .inl ?_
    obtain ⟨hx, hgx⟩ := List.mem_filter.1 hx
    obtain ⟨hy, hgy⟩ := List.mem_filter.1 hy
    rw [(groupSeeds_columns (hseeds x hx) hs).1, (groupSeeds_columns (hseeds y hy) ht).1]
    exact firstRequest_lt (hmem x hx) (hmem y hy) (Bool.and_eq_true_iff.1 hgx).2
      (Bool.and_eq_true_iff.1 hgy).2 hxy

end Order

end Plan

end Sensitivity
