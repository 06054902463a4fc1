import Mathlib.Algebra.Ring.Nat
import Mathlib.Tactic.ByContra
import Sensitivity.StateVector

/-!
# Slices of spans

Two arrays have the same slice at a span when they agree inside it (`Span.slice_eq_iff`). Overwriting
a span leaves the slices at spans apart from it alone (`Span.slice_overwrite_of_apart`), and
overwriting it with its own slice changes nothing (`Span.overwrite_slice`). A slice of a slice is a
slice (`Span.slice_slice`).

Spans that stand one behind the other (`Consecutive`) are apart, and fill what they stand in.
-/

namespace Sensitivity

namespace Span

/-- Inside another span, ends included. -/
def Within (s t : Span) : Prop := t.start ≤ s.start ∧ s.stop ≤ t.stop

variable {α : Type} {s t : Span} {a b values : Array α}

theorem contains_iff {i : Nat} : s.contains i = true ↔ s.start ≤ i ∧ i < s.stop := by
  simp [contains]

/-- No position lies in both spans. -/
def Apart (s t : Span) : Prop := ∀ i, s.contains i = true → t.contains i = false

theorem Apart.symm (h : s.Apart t) : t.Apart s := by
  intro i hi
  by_contra hs
  have := h i (by simpa using hs)
  rw [hi] at this
  cases this

theorem apart_of_le (h : s.stop ≤ t.start) : s.Apart t := by
  intro i hi
  rw [← Bool.not_eq_true, contains_iff]
  rw [contains_iff] at hi
  omega

/-- The entries of a slice. -/
theorem getElem?_slice (i : Nat) :
    (s.slice a)[i]? = if i < s.size then a[s.start + i]? else none := by
  simp only [slice, Array.getElem?_extract, stop]
  split <;> split <;> first | rfl | (rw [eq_comm, Array.getElem?_eq_none]; omega)

/-- The slice of an array that holds the span has its size. -/
theorem size_slice (h : s.stop ≤ a.size) : (s.slice a).size = s.size := by
  simp only [slice, Array.size_extract, stop] at *
  omega

/-- **Slices are equal when the arrays agree inside the span.** -/
theorem slice_eq_iff : s.slice a = s.slice b ↔ ∀ i, s.contains i = true → a[i]? = b[i]? := by
  constructor
  · intro h i hi
    rw [contains_iff] at hi
    have hget : (s.slice a)[i - s.start]? = (s.slice b)[i - s.start]? := by rw [h]
    have hlt : i - s.start < s.size := by
      have : s.stop = s.start + s.size := rfl
      omega
    rw [getElem?_slice, getElem?_slice, if_pos hlt, if_pos hlt] at hget
    rwa [Nat.add_sub_cancel' hi.1] at hget
  · intro h
    refine Array.ext_getElem? fun i => ?_
    rw [getElem?_slice, getElem?_slice]
    split
    · rename_i hi
      refine h _ (contains_iff.2 ⟨Nat.le_add_right _ _, ?_⟩)
      simp only [stop]
      omega
    · rfl

/-- What overwriting leaves inside the span. -/
theorem getElem?_overwrite_of_contains {i : Nat} (hi : s.contains i = true) :
    (s.overwrite a values)[i]? = a[i]?.map fun old => values.getD (i - s.start) old := by
  simp [overwrite, hi]

/-- Overwriting is not seen at a span apart. -/
theorem slice_overwrite_of_apart (h : t.Apart s) :
    t.slice (s.overwrite a values) = t.slice a :=
  slice_eq_iff.2 fun i hi =>
    getElem?_overwrite_of_not_contains s a values i (h i hi)

/-- A single entry changes the slices that hold it. -/
theorem slice_modify_of_not_contains {i : Nat} (h : s.contains i = false) (f : α → α) :
    s.slice (a.modify i f) = s.slice a := by
  refine slice_eq_iff.2 fun j hj => ?_
  rw [Array.getElem?_modify, if_neg]
  rintro rfl
  rw [h] at hj
  cases hj

/-- What is written is read back where it fits. -/
theorem slice_overwrite_self (hfits : s.stop ≤ a.size) (h : values.size = s.size) :
    s.slice (s.overwrite a values) = values := by
  refine Array.ext_getElem? fun i => ?_
  rw [getElem?_slice]
  split
  · rename_i hi
    have hstop : s.stop = s.start + s.size := rfl
    rw [getElem?_overwrite_of_contains (contains_iff.2 ⟨Nat.le_add_right _ _, by omega⟩),
      Nat.add_sub_cancel_left, Array.getElem?_eq_getElem (by omega),
      Array.getElem?_eq_getElem (by omega : i < values.size)]
    simp [Array.getD, h, hi]
  · rw [Array.getElem?_eq_none (by omega)]

/-- The entries of a slice, by their positions in the array. -/
theorem getElem?_slice_of_contains {i : Nat} (hi : s.contains i = true) :
    (s.slice a)[i - s.start]? = a[i]? := by
  rw [contains_iff, stop] at hi
  rw [getElem?_slice, if_pos (by omega), Nat.add_sub_cancel' hi.1]

/-- Overwriting entries with what they are changes nothing. -/
theorem overwrite_eq_self (h : ∀ i x y, s.contains i = true → values[i - s.start]? = some x →
    a[i]? = some y → x = y) : s.overwrite a values = a := by
  refine Array.ext_getElem? fun i => ?_
  by_cases hi : s.contains i = true
  · rw [getElem?_overwrite_of_contains hi]
    simp only [Array.getD_eq_getD_getElem?]
    cases ha : a[i]? with
    | none => rfl
    | some y =>
      cases hx : values[i - s.start]? with
      | none => rfl
      | some x => rw [h i x y hi hx ha]; rfl
  · exact getElem?_overwrite_of_not_contains _ _ _ _ (by simpa using hi)

/-- Overwriting with the same values again changes nothing. -/
theorem overwrite_of_slice_eq (h : s.slice b = s.slice (s.overwrite a values)) :
    s.overwrite b values = b := by
  refine overwrite_eq_self fun i x y hi hx hy => ?_
  have hb := slice_eq_iff.1 h i hi
  rw [getElem?_overwrite_of_contains hi, hy] at hb
  obtain ⟨old, -, hold⟩ := Option.map_eq_some_iff.1 hb.symm
  rwa [Array.getD_eq_getD_getElem?, hx] at hold

/-- Overwriting looks at what was there before inside the span only. -/
theorem slice_overwrite_congr (h : s.slice a = s.slice b) :
    s.slice (s.overwrite a values) = s.slice (s.overwrite b values) := by
  refine slice_eq_iff.2 fun i hi => ?_
  rw [getElem?_overwrite_of_contains hi, getElem?_overwrite_of_contains hi,
    slice_eq_iff.1 h i hi]

/-- Slices inside a span are parts of its slice. -/
theorem slice_eq_of_within (hw : t.Within s) (h : s.slice a = s.slice b) :
    t.slice a = t.slice b := by
  refine slice_eq_iff.2 fun i hi => slice_eq_iff.1 h i ?_
  rw [contains_iff] at hi ⊢
  exact ⟨Nat.le_trans hw.1 hi.1, Nat.lt_of_lt_of_le hi.2 hw.2⟩

/-- What was there can be put back. -/
theorem overwrite_overwrite_slice : s.overwrite (s.overwrite a values) (s.slice a) = a := by
  refine Array.ext_getElem? fun i => ?_
  by_cases hi : s.contains i = true
  · rw [getElem?_overwrite_of_contains hi, getElem?_overwrite_of_contains hi]
    simp only [Array.getD_eq_getD_getElem?, getElem?_slice_of_contains hi]
    cases a[i]? <;> rfl
  · have hi : s.contains i = false := by simpa using hi
    rw [getElem?_overwrite_of_not_contains _ _ _ _ hi,
      getElem?_overwrite_of_not_contains _ _ _ _ hi]

/-- Entries of a slice that is put in place of another. -/
theorem getElem?_overwrite_slice {i : Nat} (hi : s.contains i = true) (hsize : a.size = b.size) :
    (s.overwrite a (s.slice b))[i]? = b[i]? := by
  rw [getElem?_overwrite_of_contains hi]
  simp only [Array.getD_eq_getD_getElem?, getElem?_slice_of_contains hi]
  by_cases hlt : i < a.size
  · rw [Array.getElem?_eq_getElem hlt, Array.getElem?_eq_getElem (hsize ▸ hlt)]
    rfl
  · rw [Array.getElem?_eq_none (by omega), Array.getElem?_eq_none (by omega)]
    rfl

/-- **Overwriting a span with what it holds changes nothing.** -/
theorem overwrite_slice (s : Span) (a : Array α) : s.overwrite a (s.slice a) = a := by
  refine overwrite_eq_self fun i x y hi hx hy => ?_
  rw [getElem?_slice_of_contains hi, hy] at hx
  exact (Option.some.inj hx).symm

/-- A slice of a slice, as long as the inner span lies in the outer one. -/
theorem slice_slice (h : t.stop ≤ s.size) :
    t.slice (s.slice a) = (⟨s.start + t.start, t.size⟩ : Span).slice a := by
  refine Array.ext_getElem? fun i => ?_
  simp only [getElem?_slice]
  split
  · have hstop : t.stop = t.start + t.size := rfl
    rw [if_pos (by omega), Nat.add_assoc]
  · rfl

end Span

/-- Spans that stand one behind the other, from `start` up to `stop`. -/
def Consecutive (start stop : Nat) : List Span → Prop
  | [] => start = stop
  | s :: rest => s.start = start ∧ Consecutive s.stop stop rest

namespace Consecutive

variable {start middle stop : Nat} {ss ts : List Span}

theorem append (hs : Consecutive start middle ss) (ht : Consecutive middle stop ts) :
    Consecutive start stop (ss ++ ts) := by
  induction ss generalizing start with
  | nil => exact hs ▸ ht
  | cons s rest ih => exact ⟨hs.1, ih hs.2⟩

/-- They lie between their ends. -/
theorem bounds (h : Consecutive start stop ss) :
    start ≤ stop ∧ ∀ s ∈ ss, start ≤ s.start ∧ s.stop ≤ stop := by
  induction ss generalizing start with
  | nil => exact ⟨Nat.le_of_eq h, by simp⟩
  | cons s rest ih =>
    obtain ⟨rfl, hrest⟩ := h
    obtain ⟨hle, hall⟩ := ih hrest
    have hstop : s.stop = s.start + s.size := rfl
    refine ⟨by omega, fun t ht => ?_⟩
    rcases List.mem_cons.1 ht with rfl | ht
    · exact ⟨Nat.le_refl _, hle⟩
    · have := hall t ht
      omega

/-- Each ends before the next begins. -/
theorem pairwise (h : Consecutive start stop ss) : ss.Pairwise fun s t => s.stop ≤ t.start := by
  induction ss generalizing start with
  | nil => exact .nil
  | cons s rest ih =>
    exact List.pairwise_cons.2 ⟨fun t ht => ((bounds h.2).2 t ht).1, ih h.2⟩

/-- Spans that stand one behind the other can be cut into two runs anywhere. -/
theorem of_append (h : Consecutive start stop (ss ++ ts)) :
    ∃ middle, Consecutive start middle ss ∧ Consecutive middle stop ts := by
  induction ss generalizing start with
  | nil => exact ⟨start, rfl, h⟩
  | cons s rest ih =>
    obtain ⟨middle, hrest, hts⟩ := ih h.2
    exact ⟨middle, ⟨h.1, hrest⟩, hts⟩

/-- The last one ends where they all do. -/
theorem stop_last {s : Span} (h : Consecutive start stop (ss ++ [s])) : s.stop = stop := by
  obtain ⟨_, -, hs⟩ := h.of_append
  exact hs.2

/-- Spans that fill others one after the other. -/
theorem flatMap {α : Type} {outer : α → Span} {inner : α → List Span} {xs : List α}
    (h : Consecutive start stop (xs.map outer))
    (hx : ∀ x ∈ xs, Consecutive (outer x).start (outer x).stop (inner x)) :
    Consecutive start stop (xs.flatMap inner) := by
  induction xs generalizing start with
  | nil => exact h
  | cons x rest ih =>
    obtain ⟨hstart, hrest⟩ := h
    have hfirst := hx x List.mem_cons_self
    rw [hstart] at hfirst
    rw [List.flatMap_cons]
    exact hfirst.append (ih hrest fun y hy => hx y (List.mem_cons_of_mem _ hy))

/-- Together they are as long as what they fill. -/
theorem stop_eq (h : Consecutive start stop ss) : stop = start + (ss.map Span.size).sum := by
  induction ss generalizing start with
  | nil => exact h.symm
  | cons s rest ih =>
    obtain ⟨rfl, hrest⟩ := h
    rw [ih hrest, List.map_cons, List.sum_cons, Span.stop, Nat.add_assoc]

/-- They leave no gap. -/
theorem exists_contains (h : Consecutive start stop ss) {i : Nat} (hi : start ≤ i)
    (hlt : i < stop) : ∃ s ∈ ss, s.contains i = true := by
  induction ss generalizing start with
  | nil =>
    have : start = stop := h
    omega
  | cons s rest ih =>
    obtain ⟨rfl, hrest⟩ := h
    by_cases hs : i < s.stop
    · exact ⟨s, List.mem_cons_self, Span.contains_iff.2 ⟨hi, hs⟩⟩
    · obtain ⟨t, ht, hcontains⟩ := ih hrest (by omega)
      exact ⟨t, List.mem_cons_of_mem _ ht, hcontains⟩

end Consecutive

end Sensitivity
