import Sensitivity.Approximation.Assembler
import Sensitivity.Proofs.Action

/-!
# What an assembler holds

A direction deposits columns: for each column the numerators of all variables and the step they are
divided by (`Deposit`). Where a block has a pattern, an assembler holds at each coordinate the value
that some deposit of its column gave it, unless there was none (`Assembler.Holds`); the last one
wins. A new assembler holds nothing (`Assembler.holds_start`), and depositing a direction adds its
columns (`Assembler.Holds.deposit`).
-/

namespace Sensitivity

variable {R : Type} [Scalar R]

/-- A written column: the numerators of all variables, and the step that divides them. -/
structure Deposit (R : Type) where
  column : Column
  numerators : Table String (List R)
  step : R

/-- The value that a deposit gives an entry of a variable. -/
def Deposit.value? (e : Deposit R) (of : String) (i : Nat) : Option R := do
  return (← (← e.numerators.get? of)[i]?) / e.step

/-- A slot for a request with the pattern `p`: `values` at its coordinates. -/
structure AssemblySlot.Serves (sizes : Sizes) (q : Request R) (p : Pattern) (values : List R)
    (s : AssemblySlot R) : Prop where
  of_eq : s.of = q.of
  wrt_eq : s.wrt = q.wrt
  rows_eq : q.rows sizes = .ok s.rows
  length_eq : values.length = p.count
  block : ∃ rows cols, q.shape sizes = .ok (rows, cols) ∧ s.block = .sparse p values rows cols

namespace Assembler

/-- The value at the coordinate `(row, col)` of request `r`, which is of `of` with these `rows`, is
that of one of some deposits, or none of them wrote there. -/
def Explained (deposits : List (Deposit R)) (r : Nat) (of : String) (rows : List Nat)
    (row col : Nat) (v : Option R) : Prop :=
  (∀ e ∈ deposits, e.column ≠ ⟨r, col⟩) ∨
    ∃ e ∈ deposits, e.column = ⟨r, col⟩ ∧ ∃ i w, rows[row]? = some i ∧
      e.value? of i = some w ∧ v = some w

/-- What an assembler holds after some deposits, for each request with a pattern. -/
structure Holds (requests : List (Request R)) (sizes : Sizes) (deposits : List (Deposit R))
    (a : Assembler R) : Prop where
  length_eq : a.slots.length = requests.length
  slot : ∀ (r : Nat) (q : Request R) (p : Pattern), requests[r]? = some q → q.pattern = some p →
    ∃ (s : AssemblySlot R) (values : List R), a.slots[r]? = some s ∧ s.Serves sizes q p values ∧
      ∀ k row col : Nat, p.rows[k]? = some row → p.cols[k]? = some col →
        Explained deposits r q.of s.rows row col values[k]?

/-- A deposit elsewhere changes no explanation. -/
theorem Explained.append_of_ne {deposits : List (Deposit R)} {e : Deposit R} {r : Nat} {of : String}
    {rows : List Nat} {row col : Nat} {v : Option R} (h : Explained deposits r of rows row col v)
    (hne : e.column ≠ ⟨r, col⟩) : Explained (deposits ++ [e]) r of rows row col v := by
  rcases h with h | ⟨d, hd, h⟩
  · refine .inl fun d hd => ?_
    rcases List.mem_append.1 hd with hd | hd
    · exact h d hd
    · exact List.mem_singleton.1 hd ▸ hne
  · exact .inr ⟨d, List.mem_append_left _ hd, h⟩

/-- A new assembler holds nothing. -/
theorem holds_start {requests : List (Request R)} {sizes : Sizes} {plan : Plan R}
    {a : Assembler R} (h : start requests sizes plan = .ok a) : Holds requests sizes [] a := by
  obtain ⟨slots, hslots, ha⟩ := Except.bind_eq_ok.1 h
  cases ha
  have hall := Except.mapM_eq_ok.1 hslots
  refine ⟨hall.length_eq.symm, fun r q p hq hp => ?_⟩
  obtain ⟨hr, rfl⟩ := List.getElem?_eq_some_iff.1 hq
  have hr' : r < slots.length := hall.length_eq ▸ hr
  have hslot := hall.get hr hr'
  simp only [List.get_eq_getElem, Except.bind_eq_ok] at hslot
  obtain ⟨⟨rows, cols⟩, hshape, is, his, hs⟩ := hslot
  refine ⟨slots[r], List.replicate p.count 0, List.getElem?_eq_getElem hr', ?_, fun _ _ _ _ _ => ?_⟩
  · rw [← Except.ok.inj hs]
    exact ⟨rfl, rfl, his, by simp, rows, cols, hshape, by rw [hp]; rfl⟩
  · exact .inl (by simp)

omit [Scalar R] in
/-- What writing a column leaves at each coordinate of a pattern: the new value in the column, the
old one elsewhere. -/
theorem getElem?_of_writeSparse {p : Pattern} {values written : List R} {col : Nat}
    {column : Nat → Option R} (h : writeSparse? p values col column = some written) :
    written.length = values.length ∧ ∀ k row c : Nat, p.rows[k]? = some row →
      p.cols[k]? = some c → k < values.length →
      written[k]? = if c = col then column row else values[k]? := by
  have hall := Option.mapM_eq_some.1 h
  refine ⟨by simpa using hall.length_eq.symm, fun k row c hrow hcol hk => ?_⟩
  have hk' : k < written.length := by simpa using hall.length_eq ▸ (by simpa using hk)
  have hget := hall.get (by simpa using hk) hk'
  simp only [List.get_eq_getElem, List.getElem_zipIdx, Nat.zero_add, hcol, hrow,
    Option.bind_eq_bind, Option.bind_some] at hget
  rw [List.getElem?_eq_getElem hk', List.getElem?_eq_getElem hk]
  split at hget
  · rename_i hc
    rw [if_pos hc, hget]
  · rename_i hc
    rw [if_neg hc]
    exact hget.symm

/-- Writing a column of a slot with a pattern. -/
theorem serves_of_writeColumn {sizes : Sizes} {q : Request R} {p : Pattern} {values : List R}
    {s t : AssemblySlot R} (hs : s.Serves sizes q p values) {tolerance : R} {alone : Bool}
    {col : Nat} {numerator : List R} {step : R}
    (h : writeColumn? s tolerance alone col numerator step = some t) :
    t.rows = s.rows ∧ ∃ written, t.Serves sizes q p written ∧
      ∀ k row c : Nat, p.rows[k]? = some row → p.cols[k]? = some c →
        written[k]? = if c = col then do return (← numerator[← s.rows[row]?]?) / step
          else values[k]? := by
  obtain ⟨rows, cols, hshape, hblock⟩ := hs.block
  simp only [writeColumn?, hblock, Option.bind_eq_bind, Option.bind_eq_some_iff] at h
  obtain ⟨written, hwritten, h⟩ := h
  have hform : ∃ outside, t = { s with
      block := .sparse p written rows cols, outside := outside } := by
    cases alone with
    | true =>
      obtain ⟨outside, -, ht⟩ := Option.bind_eq_some_iff.1 h
      exact ⟨outside, (Option.some.inj ht).symm⟩
    | false => exact ⟨s.outside, (Option.some.inj h).symm⟩
  obtain ⟨outside, rfl⟩ := hform
  obtain ⟨hlength, hentries⟩ := getElem?_of_writeSparse hwritten
  refine ⟨rfl, written, ⟨hs.of_eq, hs.wrt_eq, hs.rows_eq, hlength.trans hs.length_eq, rows, cols,
    hshape, rfl⟩, fun k row c hrow hcol => ?_⟩
  have hk : k < values.length := by
    rw [hs.length_eq]
    exact (List.getElem?_eq_some_iff.1 hrow).1
  exact hentries k row c hrow hcol hk

variable {requests : List (Request R)} {sizes : Sizes} {deposits : List (Deposit R)}
  {a b : Assembler R}

/-- A further deposit explains what it wrote, and leaves the rest explained. -/
theorem Holds.depositColumn (ha : Holds requests sizes deposits a) {alone : Bool}
    {numerators : Table String (List R)} {step : R} {c : Column}
    (h : (depositColumn alone numerators step c).perform a = (.ok (), b)) :
    Holds requests sizes (deposits ++ [⟨c, numerators, step⟩]) b := by
  obtain ⟨slot, hslot, h⟩ := Action.ofOutcome_bind_eq_ok.1 (Action.perform_get_bind ▸ h)
  obtain ⟨numerator, hnumerator, h⟩ := Action.ofOutcome_bind_eq_ok.1 h
  obtain ⟨written, hwritten, h⟩ := Action.ofOutcome_bind_eq_ok.1 h
  rw [Outcome.ofOption_eq_ok] at hslot hwritten
  rw [Outcome.expect_eq_ok] at hnumerator
  cases h
  refine ⟨by simpa using ha.length_eq, fun r q p hq hp => ?_⟩
  obtain ⟨s, values, hs, hserves, hexplained⟩ := ha.slot r q p hq hp
  by_cases hr : r = c.request
  · subst hr
    obtain rfl := Option.some.inj (hslot.symm.trans hs)
    obtain ⟨hrows, values', hserves', hvalues'⟩ := serves_of_writeColumn hserves hwritten
    refine ⟨written, values', ?_, hserves', fun k row col hrow hcol => ?_⟩
    · exact List.getElem?_set_self (List.getElem?_eq_some_iff.1 hs).1
    · rw [hvalues' k row col hrow hcol]
      split
      · rename_i hc
        have hk : k < values'.length :=
          hserves'.length_eq ▸ (List.getElem?_eq_some_iff.1 hrow).1
        have hnew := hvalues' k row col hrow hcol
        rw [if_pos hc, List.getElem?_eq_getElem hk] at hnew
        obtain ⟨i, hi, hvalue⟩ := Option.bind_eq_some_iff.1 hnew.symm
        refine .inr ⟨_, List.mem_append_right _ (List.mem_singleton_self _), by rw [hc], i,
          values'[k], hrows ▸ hi, ?_, by rw [hnew]⟩
        simp only [Deposit.value?, ← hserves.of_eq, hnumerator, Option.bind_eq_bind,
          Option.bind_some]
        exact hvalue
      · rename_i hc
        rw [hrows]
        exact (hexplained k row col hrow hcol).append_of_ne fun h => hc (Column.mk.inj h).2.symm
  · refine ⟨s, values, ?_, hserves, fun k row col hrow hcol => ?_⟩
    · rw [List.getElem?_set_ne (Ne.symm hr)]
      exact hs
    · exact (hexplained k row col hrow hcol).append_of_ne fun h => hr (Column.mk.inj h).1.symm

/-- Work for each entry of a list adds the deposits of each. -/
theorem Holds.forEach {β : Type} {f : β → Action (Assembler R) (ApproximationError R) Unit}
    {g : β → List (Deposit R)}
    (hf : ∀ x deposits a b, Holds requests sizes deposits a → (f x).perform a = (.ok (), b) →
      Holds requests sizes (deposits ++ g x) b) {xs : List β}
    (ha : Holds requests sizes deposits a) (h : (Action.forEach xs f).perform a = (.ok (), b)) :
    Holds requests sizes (deposits ++ xs.flatMap g) b := by
  induction xs generalizing deposits a with
  | nil =>
    cases h
    simpa using ha
  | cons x rest ih =>
    obtain ⟨⟨⟩, c, hx, hrest⟩ := Action.bind_eq_ok.1 h
    have := ih (hf x deposits a c ha hx) hrest
    simpa using this

/-- The columns that a direction writes. -/
def columnsOf (d : Direction) (steps : List R) (numerators : Table String (List R)) :
    List (Deposit R) :=
  (d.seeds.zip steps).flatMap fun (seed, step) => seed.columns.map fun c => ⟨c, numerators, step⟩

/-- **Depositing a direction adds its columns.** -/
theorem Holds.deposit (ha : Holds requests sizes deposits a) {index : Nat} {d : Direction}
    {steps : List R} {numerators : Table String (List R)}
    (h : (deposit index d steps numerators).perform a = (.ok (), b)) :
    Holds requests sizes (deposits ++ columnsOf d steps numerators) b := by
  obtain ⟨⟨⟩, c, hcolumns, h⟩ := Action.bind_eq_ok.1 h
  have hc : Holds requests sizes (deposits ++ columnsOf d steps numerators) c := by
    refine ha.forEach (fun (seed, step) deposits a b ha h => ?_) hcolumns
    dsimp only at h ⊢
    rw [List.map_eq_flatMap]
    exact ha.forEach (fun c deposits a b ha h => ha.depositColumn h) h
  rw [Action.perform_get_bind] at h
  split at h
  · cases h
    exact ⟨hc.length_eq, hc.slot⟩
  · cases h

end Assembler

end Sensitivity
