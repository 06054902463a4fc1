import Sensitivity.Proofs.Approximation.Ambiguity
import Sensitivity.Proofs.Span
import Sensitivity.Proofs.Table

/-!
# Rows that seeds share

Two seeds meet when both are declared to write the same entry of the same variable (`Seed.Meets`).
A coloring compares rows instead, of all variables stacked one behind the other
(`Plan.consecutive_rowOffsets`). A stacked row is one entry of one variable
(`Plan.eq_of_offset_add`), so that seeds with a stacked row in common are those that meet
(`Plan.meets_iff`).
-/

namespace Sensitivity

variable {R : Type}

namespace Seed

/-- The entries that a seed is declared to write. -/
def written (requests : List (Request R)) (sizes : Sizes) (s : Seed) : List (String × Nat) :=
  s.columns.flatMap fun c =>
    match requests[c.request]? with
    | none => []
    | some q =>
      match q.rows sizes with
      | .error _ => []
      | .ok rows => rows.zipIdx.filterMap fun x =>
          if q.pattern.all fun p => p.contains x.2 c.col then some (q.of, x.1) else none

/-- Two seeds are declared to write a common entry. -/
def Meets (requests : List (Request R)) (sizes : Sizes) (s t : Seed) : Prop :=
  ∃ of i, s.Writes requests sizes of i ∧ t.Writes requests sizes of i

variable {requests : List (Request R)} {sizes : Sizes} {s t : Seed}

theorem mem_written {of : String} {i : Nat} :
    (of, i) ∈ s.written requests sizes ↔ s.Writes requests sizes of i := by
  simp only [written, Writes, List.mem_flatMap]
  refine exists_congr fun c => and_congr_right fun _ => ?_
  cases hq : requests[c.request]? with
  | none => simp
  | some q =>
    cases hrows : q.rows sizes with
    | error e => simp [hrows]
    | ok rows =>
      simp only [hrows, List.mem_filterMap, Option.ite_none_right_eq_some, Option.some.injEq,
        Prod.mk.injEq, Option.all_eq_true, Prod.exists, List.mem_zipIdx_iff_getElem?]
      constructor
      · rintro ⟨_, r, hi, hp, rfl, rfl⟩
        exact ⟨q, rows, r, rfl, rfl, hrows, hi, hp⟩
      · rintro ⟨_, _, r, rfl, rfl, hrows', hi, hp⟩
        cases hrows.symm.trans hrows'
        exact ⟨i, r, hi, hp, rfl, rfl⟩

instance decidableMeets : Decidable (s.Meets requests sizes t) :=
  decidable_of_iff (∃ e ∈ s.written requests sizes, e ∈ t.written requests sizes) <| by
    simp only [Prod.exists, mem_written]
    rfl

end Seed

namespace Plan

section Stacking

variable {requests : List (Request R)} {sizes : Sizes}

/-- The rows of a variable that is stacked from an offset on. -/
def rowSpan (sizes : Sizes) (e : String × Nat) : Span := ⟨e.2, (sizes.get? e.1).getD 0⟩

/-- **Variables are stacked one behind the other.** -/
theorem consecutive_rowOffsets (requests : List (Request R)) (sizes : Sizes) :
    ∃ stop, Consecutive 0 stop ((rowOffsets requests sizes).entries.map (rowSpan sizes)) := by
  have hfold (rs : List (Request R)) (x : Table String Nat × Nat)
      (h : Consecutive 0 x.2 (x.1.entries.map (rowSpan sizes))) :
      ∃ stop, Consecutive 0 stop ((rs.foldl (fun x q => if x.1.contains q.of then x
        else (x.1.insert q.of x.2, x.2 + (sizes.get? q.of).getD 0)) x).1.entries.map
          (rowSpan sizes)) := by
    induction rs generalizing x with
    | nil => exact ⟨x.2, h⟩
    | cons q rest ih =>
      rw [List.foldl_cons]
      refine ih _ ?_
      split
      · exact h
      · rename_i hnew
        have hkey : q.of ∉ x.1.keys := by simpa [Table.contains] using hnew
        rw [Table.entries_insert hkey, List.map_append]
        exact h.append ⟨rfl, rfl⟩
  exact hfold requests (∅, 0) rfl

/-- A stacked row is one entry of one variable. -/
theorem eq_of_offset_add {a b : String} {o p i j : Nat}
    (ha : (rowOffsets requests sizes).get? a = some o)
    (hb : (rowOffsets requests sizes).get? b = some p) (hi : i < (sizes.get? a).getD 0)
    (hj : j < (sizes.get? b).getD 0) (h : o + i = p + j) : a = b ∧ i = j := by
  obtain ⟨stop, hstop⟩ := consecutive_rowOffsets requests sizes
  have hsymm : Std.Symm fun e f : String × Nat => (rowSpan sizes e).Apart (rowSpan sizes f) :=
    ⟨fun _ _ => Span.Apart.symm⟩
  have hapart := (List.pairwise_map.1 hstop.pairwise).imp (S := fun e f : String × Nat =>
    (rowSpan sizes e).Apart (rowSpan sizes f)) Span.apart_of_le
  have hab : a = b := by
    by_contra hne
    have hea := (Table.get?_eq_some_iff _ _ _).1 ha
    have heb := (Table.get?_eq_some_iff _ _ _).1 hb
    have := hapart.forall hea heb (by simp [hne]) (o + i)
      (Span.contains_iff.2 ⟨by simp [rowSpan], by simp [rowSpan, Span.stop, hi]⟩)
    rw [← Bool.not_eq_true, Span.contains_iff] at this
    simp only [rowSpan, Span.stop] at this
    omega
  subst hab
  obtain rfl := Option.some.inj (ha.symm.trans hb)
  exact ⟨rfl, by omega⟩

end Stacking

section Meets

variable [Scalar R] {requests : List (Request R)} {sizes : Sizes}

/-- A seed of a group that can be coloured. -/
def Colored (requests : List (Request R)) (sizes : Sizes) (s : Seed) : Prop :=
  ∃ g ∈ groups requests, g.colorable = true ∧ ∃ seeds, groupSeeds sizes g = .ok seeds ∧ s ∈ seeds

omit [Scalar R] in
/-- A stacked row of a seed is an entry that the seed writes. -/
theorem exists_writes_of_mem_seedRows {s : Seed} {x : Seed × List Nat} {offsets : Table String Nat}
    (hx : seedRows requests sizes offsets s = .ok x) {r : Nat} (hr : r ∈ x.2) :
    ∃ of i offset, offsets.get? of = some offset ∧ i < (sizes.get? of).getD 0 ∧ r = offset + i ∧
      s.Writes requests sizes of i := by
  obtain ⟨found, hfound, he⟩ := Except.bind_eq_ok.1 hx
  cases he
  obtain ⟨own, hown, hr⟩ := List.mem_flatten.1 hr
  obtain ⟨c, hc, hown⟩ := (Except.mem_mapM hfound).1 hown
  simp only [columnRows, Except.bind_eq_ok, Outcome.ofOption_eq_ok, Outcome.ofExcept_eq_ok] at hown
  obtain ⟨q, hq, rows, hrows, offset, hoffset, hown⟩ := hown
  cases hp : q.pattern with
  | none =>
    simp only [hp] at hown
    cases hown
    cases hr
  | some p =>
    simp only [hp] at hown
    obtain ⟨k, hk, hrow⟩ := (Except.mem_mapM hown).1 hr
    simp only [Except.bind_eq_ok, Outcome.ofOption_eq_ok] at hrow
    obtain ⟨i, hi, he⟩ := hrow
    cases he
    refine ⟨q.of, i, offset, hoffset, Request.lt_of_mem_select hrows (List.mem_of_getElem? hi), rfl,
      c, hc, q, rows, k, hq, rfl, hrows, hi, fun p' hp' => ?_⟩
    cases hp.symm.trans hp'
    obtain ⟨⟨_, _⟩, hplace, rfl⟩ := List.mem_map.1 hk
    obtain ⟨hplace, hcol⟩ := List.mem_filter.1 hplace
    rw [← eq_of_beq hcol]
    exact List.contains_iff_mem.2 hplace

/-- **Seeds meet where their stacked rows do.** -/
theorem meets_iff {s t : Seed} (hs : Colored requests sizes s) (ht : Colored requests sizes t)
    {x y : Seed × List Nat} (hx : seedRows requests sizes (rowOffsets requests sizes) s = .ok x)
    (hy : seedRows requests sizes (rowOffsets requests sizes) t = .ok y) :
    s.Meets requests sizes t ↔ ∃ r ∈ y.2, r ∈ x.2 := by
  constructor
  · rintro ⟨of, i, hsi, hti⟩
    obtain ⟨g, hg, hgc, ss, hss, hs⟩ := hs
    obtain ⟨h, hh, hhc, ts, hts, ht⟩ := ht
    obtain ⟨offset, hoffset, hix⟩ := mem_rows_of_writes hg hss hgc hs hx hsi
    obtain ⟨offset', hoffset', hiy⟩ := mem_rows_of_writes hh hts hhc ht hy hti
    obtain rfl := Option.some.inj (hoffset.symm.trans hoffset')
    exact ⟨_, hiy, hix⟩
  · rintro ⟨r, hry, hrx⟩
    obtain ⟨of, i, o, ho, hi, rfl, hsi⟩ := exists_writes_of_mem_seedRows hx hrx
    obtain ⟨of', j, p, hp, hj, he, htj⟩ := exists_writes_of_mem_seedRows hy hry
    obtain ⟨rfl, rfl⟩ := eq_of_offset_add ho hp hi hj he
    exact ⟨of, i, hsi, htj⟩

end Meets

end Plan

end Sensitivity
