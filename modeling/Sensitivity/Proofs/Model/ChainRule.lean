import Mathlib
import Sensitivity.Proofs.Approximation.Slopes
import Sensitivity.Proofs.Model.Collecting
import Sensitivity.Proofs.Model.Influence
import Sensitivity.Proofs.Subsystem

/-!
# Leaving irrelevant blocks out of the chain rule

The blocks of a model say how the entries of its outputs influence one another (`Model.influence`)
and what entries of design variables feed into them (`Model.seeding`): in exact arithmetic the total
derivatives solve `(I - A) X = B` for these two matrices. The program assembles the same system
(`Model.entry_chainMatrix`, `Model.entry_seeds`), but from the blocks on a path from a design variable
to a response only.

That is enough. Outputs that no design variable leads to are fed nothing, and an output that leads to
a response is influenced by others that do, along blocks that are kept if a design variable leads to
them. So where both systems have one solution, the shorter one gives the same totals
(`Model.chainRuleTotals_eq`), whether or not the model has cycles.
-/

namespace Sensitivity

/-- Solvers without rounding: what they give solves the system. -/
class ExactSolver (R : Type) [ExactScalar R] [DirectSolver R] : Prop where
  solves : ∀ {a b x : DenseMatrix R}, a.rows = a.cols → a.rows = b.rows →
    DirectSolver.solve a b = some x → ∀ r < a.rows, ∀ c < b.cols,
      ∑ k ∈ Finset.range a.rows, a.entry r k * x.entry k c = b.entry r c

variable {R M : Type} [ExactScalar R]

namespace Model

section System

variable (m : Model R M)

/-- How a block makes an entry `q` of the outputs influence an entry `r`: the output that its input
reads has `q`, and its own output has `r`. -/
def coupling (b : LinkBlock R) (r q : Nat) : R :=
  match m.variableAt? b.of, (m.source? b.wrt).bind m.variableAt? with
  | some v, some u =>
    if v.span.contains r ∧ u.span.contains q then b.matrix.entry (r - v.start) (q - u.start) else 0
  | _, _ => 0

/-- What a block feeds from an entry of its input into an entry `r` of the outputs. -/
def feeding (b : LinkBlock R) (r : Nat) (d : Nat × Nat) : R :=
  match m.variableAt? b.of with
  | some v => if b.wrt = d.1 ∧ v.span.contains r then b.matrix.entry (r - v.start) d.2 else 0
  | none => 0

/-- How the entries of the outputs influence one another by some blocks. -/
def influence (blocks : List (LinkBlock R)) : Matrix (Fin m.outputLength) (Fin m.outputLength) R :=
  .of fun r q => (blocks.map fun b => m.coupling b r q).sum

/-- What the entries of variables, by number and place, feed into the entries of the outputs: an
output is itself, an unconnected input comes in through the blocks. -/
def seeding (blocks : List (LinkBlock R)) : Matrix (Fin m.outputLength) (Nat × Nat) R :=
  .of fun r d =>
    match m.variableAt? d.1 with
    | some v =>
      match v.kind with
      | .output => if d.2 < v.size ∧ r = v.start + d.2 then 1 else 0
      | .input => (blocks.map fun b => m.feeding b r d).sum
    | none => 0

/-- The derivative of an entry of a variable by another one, read off a solution. An unconnected
input only depends on itself. -/
def sensitivity (x : Matrix (Fin m.outputLength) (Nat × Nat) R) (o d : Nat × Nat) : R :=
  match m.variableAt? o.1 with
  | some v =>
    match v.kind with
    | .output => if h : v.start + o.2 < m.outputLength then x ⟨v.start + o.2, h⟩ d else 0
    | .input => if o = d then 1 else 0
  | none => 0

/-- A block of the shape of its variables. -/
def Fitting (b : LinkBlock R) : Prop :=
  ∃ v u, m.variableAt? b.of = some v ∧ m.variableAt? b.wrt = some u ∧
    b.matrix.rows = v.size ∧ b.matrix.cols = u.size

/-- The variables that stand for some driver variables. -/
def standIns (vs : List (DriverVariable R)) : List Nat :=
  vs.filterMap fun v => (m.variableId v.name).toOption.map m.effective

end System

section Assembling

variable {m : Model R M} {blocks : List (LinkBlock R)}

/-- The matrix of the chain rule with one more block. -/
def subtractBlock (m : Model R M) (a : DenseMatrix R) (b : LinkBlock R) : DenseMatrix R :=
  match m.variableAt? b.of, (m.source? b.wrt).bind m.variableAt? with
  | some v, some u => a.combineAt (· - ·) v.start u.start b.matrix
  | _, _ => a

theorem chainMatrix_eq_foldl (m : Model R M) (blocks : List (LinkBlock R)) :
    m.chainMatrix blocks = blocks.foldl m.subtractBlock (.identity m.outputLength) := by
  unfold chainMatrix
  dsimp only
  rw [List.foldl_filterMap]
  congr 1
  funext a b
  unfold subtractBlock
  cases m.variableAt? b.of <;> cases (m.source? b.wrt).bind m.variableAt? <;> rfl

theorem entry_subtractBlock (hm : m.Laid) {b : LinkBlock R} (hb : m.Fitting b) {a : DenseMatrix R}
    {r q : Nat} (hr : r < a.rows) (hq : q < a.cols) :
    (m.subtractBlock a b).entry r q = a.entry r q - m.coupling b r q := by
  obtain ⟨v, w, hv, hw, hrows, hcols⟩ := hb
  unfold subtractBlock coupling
  cases hu : (m.source? b.wrt).bind m.variableAt? with
  | none => simp only [hv, sub_zero]
  | some u =>
    obtain ⟨source, hsource, hu⟩ := Option.bind_eq_some_iff.1 hu
    obtain ⟨u', w', hu', -, hw', -, hsize⟩ := hm.matching _ _ hsource
    obtain rfl := Option.some.inj (hu.symm.trans hu')
    obtain rfl := Option.some.inj (hw.symm.trans hw')
    simp only [hv, DenseMatrix.entry_combineAt _ _ _ _ hr hq, Span.contains_iff, ModelVariable.span,
      Span.stop, hrows, hcols, hsize, and_assoc]
    split
    · rfl
    · exact (sub_zero _).symm

/-- **The matrix of the chain rule** is `I - A`. -/
theorem entry_chainMatrix (hm : m.Laid) (hblocks : ∀ b ∈ blocks, m.Fitting b) :
    (m.chainMatrix blocks).rows = m.outputLength ∧ (m.chainMatrix blocks).cols = m.outputLength ∧
      ∀ r q : Fin m.outputLength, (m.chainMatrix blocks).entry r q = (1 - m.influence blocks) r q := by
  have hfold (a : DenseMatrix R) (hrows : a.rows = m.outputLength) (hcols : a.cols = m.outputLength) :
      (blocks.foldl m.subtractBlock a).rows = m.outputLength ∧
      (blocks.foldl m.subtractBlock a).cols = m.outputLength ∧ ∀ r q : Fin m.outputLength,
        (blocks.foldl m.subtractBlock a).entry r q =
          a.entry r q - (blocks.map fun b => m.coupling b r q).sum := by
    induction blocks generalizing a with
    | nil => exact ⟨hrows, hcols, fun r q => (sub_zero _).symm⟩
    | cons b rest ih =>
      have hshape : (m.subtractBlock a b).rows = a.rows ∧ (m.subtractBlock a b).cols = a.cols := by
        unfold subtractBlock
        split <;> exact ⟨rfl, rfl⟩
      obtain ⟨h₁, h₂, h₃⟩ := ih (fun b' hb' => hblocks b' (List.mem_cons_of_mem _ hb'))
        (m.subtractBlock a b) (hshape.1.trans hrows) (hshape.2.trans hcols)
      refine ⟨h₁, h₂, fun r q => ?_⟩
      rw [List.foldl_cons, h₃, List.map_cons, List.sum_cons, ← sub_sub,
        entry_subtractBlock hm (hblocks b List.mem_cons_self) (r.2.trans_eq hrows.symm)
          (q.2.trans_eq hcols.symm)]
  rw [chainMatrix_eq_foldl]
  obtain ⟨hrows, hcols, hentry⟩ := hfold (.identity m.outputLength) rfl rfl
  refine ⟨hrows, hcols, fun r q => ?_⟩
  rw [hentry, Matrix.sub_apply, Matrix.one_apply, influence, Matrix.of_apply, DenseMatrix.identity,
    DenseMatrix.entry_tabulate _ r.2 q.2]
  simp only [Fin.ext_iff]

/-- What is fed from an entry of an input, summed up block by block. -/
theorem foldl_eq_sum_feeding (hblocks : ∀ b ∈ blocks, m.Fitting b) (id i row : Nat) :
    ((blocks.filter fun b => b.wrt = id).filterMap fun b => do
      return ((← m.variableAt? b.of).start, b.matrix)).foldl (fun sum (start, b) =>
        if start ≤ row ∧ row < start + b.rows then sum + b.entry (row - start) i else sum) 0 =
      (blocks.map fun b => m.feeding b row (id, i)).sum := by
  rw [List.foldl_filterMap, List.foldl_filter, List.sum_eq_foldl, List.foldl_map]
  refine List.foldl_ext _ _ _ fun sum b hb => ?_
  obtain ⟨v, -, hv, -, hrows, -⟩ := hblocks b hb
  by_cases hwrt : b.wrt = id
  · simp only [hwrt, decide_true, if_true, hv, Option.bind_eq_bind, Option.bind_some, pure, feeding,
      true_and, Span.contains_iff, ModelVariable.span, Span.stop, hrows]
    split <;> simp
  · simp [hwrt, feeding, hv]

/-- **A column of the right-hand side** is one of `B`. -/
theorem seedColumn_eq (hblocks : ∀ b ∈ blocks, m.Fitting b) {id i : Nat} {v : ModelVariable R}
    (hv : m.variableAt? id = some v) (hi : i < v.size) (r : Fin m.outputLength) :
    m.seedColumn blocks id v i r = m.seeding blocks r (id, i) := by
  rw [seeding, Matrix.of_apply, seedColumn]
  simp only [hv]
  cases v.kind with
  | output => simp [hi]
  | input => exact foldl_eq_sum_feeding hblocks id i r

/-- The right-hand side has a column for each selected entry of each design variable. -/
theorem entry_seeds (hblocks : ∀ b ∈ blocks, m.Fitting b)
    {designs before after : List (Nat × ModelVariable R × List Nat)}
    {design : Nat × ModelVariable R × List Nat} (hcut : designs = before ++ design :: after)
    (hv : m.variableAt? design.1 = some design.2.1) {k i : Nat} (hk : design.2.2[k]? = some i)
    (hi : i < design.2.1.size) :
    columnCount before + k < (m.seeds blocks designs).cols ∧ ∀ r : Fin m.outputLength,
      (m.seeds blocks designs).entry r (columnCount before + k) =
        m.seeding blocks r (design.1, i) := by
  obtain ⟨hlt, hcolumn⟩ : _ ∧ (m.seeds blocks designs).column _ = _ := column_seeds hcut hk
  refine ⟨hlt, fun r => ?_⟩
  rw [← seedColumn_eq hblocks hv hi r]
  have hat := congrArg (·[(r : Nat)]?) hcolumn
  simpa [DenseMatrix.column, seeds, DenseMatrix.tabulate] using hat

end Assembling

section Paths

variable {m : Model R M} {values : Nat → DeclaredPartial R → DenseMatrix R} {b : LinkBlock R}

omit [ExactScalar R] in
/-- The blocks of a model join inputs and outputs along its edges. -/
theorem Laid.of_mem_links (hm : m.Laid) (hb : b ∈ m.links values) : ∃ v, m.variableAt? b.of = some v ∧
    v.kind = .output ∧ (b.wrt, b.of) ∈ m.graph.edges := by
  obtain ⟨k, c, p, wrt, of, hc, hp, hends, rfl⟩ := mem_links.1 hb
  obtain ⟨hwrt, hof⟩ := ModelComponent.ends?_eq_some.1 hends
  obtain ⟨n, d, hn, hnode⟩ := hm.exists_node hc
  obtain ⟨v, -, hv, hkind, -⟩ := hm.exists_of_idOf? hc hof
  refine ⟨v, hv, hkind, hm.complete.mem_edges_of_component hn ?_⟩
  exact hnode.mem_edges_of_dependsOn hwrt hof (.inr (.inr ⟨p, hp, rfl, rfl⟩))

/-- **A block that couples two entries** leads from the variable of one to that of the other. -/
theorem Laid.of_coupling (hm : m.Laid) (hb : b ∈ m.links values) {r q : Nat}
    (h : m.coupling b r q ≠ 0) : ∃ source, m.holder? .output r = some b.of ∧
      m.holder? .output q = some source ∧ (source, b.wrt) ∈ m.graph.edges ∧
        (b.wrt, b.of) ∈ m.graph.edges := by
  obtain ⟨v, hv, hkind, hedge⟩ := hm.of_mem_links hb
  unfold coupling at h
  rw [hv] at h
  cases hu : (m.source? b.wrt).bind m.variableAt? with
  | none => simp [hu] at h
  | some u =>
    obtain ⟨source, hsource, hu'⟩ := Option.bind_eq_some_iff.1 hu
    obtain ⟨u', -, hu'', hukind, -⟩ := hm.matching _ _ hsource
    obtain rfl := Option.some.inj (hu'.symm.trans hu'')
    simp only [hu, ne_eq, ite_eq_right_iff, not_forall] at h
    obtain ⟨⟨hr, hq⟩, -⟩ := h
    exact ⟨source, hkind ▸ hm.holder?_eq hv hr, hukind ▸ hm.holder?_eq hu' hq,
      hm.mem_edges_iff.2 (.inl hsource), hedge⟩

/-- **A block that feeds into an entry** leads from its input to the variable of the entry. -/
theorem Laid.of_feeding (hm : m.Laid) (hb : b ∈ m.links values) {r : Nat} {d : Nat × Nat}
    (h : m.feeding b r d ≠ 0) : b.wrt = d.1 ∧ m.holder? .output r = some b.of ∧
      (b.wrt, b.of) ∈ m.graph.edges := by
  obtain ⟨v, hv, hkind, hedge⟩ := hm.of_mem_links hb
  unfold feeding at h
  simp only [hv, ne_eq, ite_eq_right_iff, not_forall] at h
  obtain ⟨⟨hwrt, hr⟩, -⟩ := h
  exact ⟨hwrt, hkind ▸ hm.holder?_eq hv hr, hedge⟩

omit [ExactScalar R] in
/-- An edge is on a path where its start is reached and its end reaches what is asked for. -/
theorem Laid.onPath_edge (hm : m.Laid) {e : Nat × Nat} (he : e ∈ m.graph.edges)
    {starts ends : List Nat} {reached reaching : List Bool}
    (hreached : m.graph.reachableFrom? starts = some reached)
    (hreaching : m.graph.reaching? ends = some reaching) :
    onPath reached reaching e = true ↔ m.Reached (· ∈ starts) e.1 ∧ m.Reaching (· ∈ ends) e.2 := by
  have hnodes {next : Nat → List Nat} {seeds : List Nat} {marks : List Bool}
      (h : m.graph.flood? next seeds = some marks) : ∀ u ∈ seeds, u < m.graph.size := by
    unfold DependencyGraph.flood? at h
    split at h
    · rename_i hall
      simpa using hall
    · cases h
  obtain ⟨reached', hreached', hP⟩ :=
    DependencyGraph.reachableFrom?_spec hm.complete.bounded (hnodes hreached)
  obtain ⟨reaching', hreaching', hQ⟩ :=
    DependencyGraph.reaching?_spec hm.complete.bounded (hnodes hreaching)
  obtain rfl := Option.some.inj (hreached.symm.trans hreached')
  obtain rfl := Option.some.inj (hreaching.symm.trans hreaching')
  obtain ⟨below, hbelow, hbelowiff⟩ := hP e.1 (hm.complete.bounded _ he).1
  obtain ⟨above, habove, haboveiff⟩ := hQ e.2 (hm.complete.bounded _ he).2
  rw [onPath, List.getD_eq_getElem?_getD, List.getD_eq_getElem?_getD, hbelow, habove,
    Option.getD_some, Option.getD_some, Bool.and_eq_true, hbelowiff, haboveiff]
  rfl

omit [ExactScalar R] in
/-- A block is kept where its input is reached and its output reaches what is asked for. -/
theorem Laid.onPath_iff (hm : m.Laid) (hb : b ∈ m.links values) {starts ends : List Nat}
    {reached reaching : List Bool} (hreached : m.graph.reachableFrom? starts = some reached)
    (hreaching : m.graph.reaching? ends = some reaching) :
    b.onPath reached reaching = true ↔
      m.Reached (· ∈ starts) b.wrt ∧ m.Reaching (· ∈ ends) b.of := by
  obtain ⟨-, -, -, hedge⟩ := hm.of_mem_links hb
  exact hm.onPath_edge hedge hreached hreaching

end Paths

section Pruned

variable {m : Model R M} {values : Nat → DeclaredPartial R → DenseMatrix R} {starts ends : List Nat}
  {reached reaching : List Bool} {r q : Fin m.outputLength}

/-- Terms that are zero may be left out of a sum. -/
theorem sum_filter_eq {β : Type} {f : β → R} {keep : β → Bool} {xs : List β}
    (h : ∀ x ∈ xs, keep x = false → f x = 0) : ((xs.filter keep).map f).sum = (xs.map f).sum := by
  induction xs with
  | nil => rfl
  | cons x rest ih =>
    have hrest := ih fun y hy => h y (List.mem_cons_of_mem _ hy)
    cases hx : keep x with
    | true => rw [List.filter_cons_of_pos hx, List.map_cons, List.map_cons, List.sum_cons,
        List.sum_cons, hrest]
    | false => rw [List.filter_cons_of_neg (by simp [hx]), List.map_cons, List.sum_cons,
        h x List.mem_cons_self hx, zero_add, hrest]

/-- **Nothing leads from what is reached to elsewhere.** -/
theorem Laid.influence_eq_zero_of_reached (hm : m.Laid) {P : Nat → Prop}
    (hr : ¬ m.EntryOf .output (m.Reached P) r) (hq : m.EntryOf .output (m.Reached P) q) :
    m.influence (m.links values) r q = 0 := by
  refine List.sum_eq_zero fun x hx => ?_
  obtain ⟨b, hb, rfl⟩ := List.mem_map.1 hx
  by_contra hne
  obtain ⟨source, hbr, hbq, hin, hout⟩ := hm.of_coupling hb hne
  obtain ⟨id, hid, u, hu, hpath⟩ := hq
  obtain rfl := Option.some.inj (hid.symm.trans hbq)
  exact hr ⟨b.of, hbr, u, hu, (hpath.tail hin).tail hout⟩

/-- **Nothing leads from elsewhere to what reaches** the ends. -/
theorem Laid.influence_eq_zero_of_reaching (hm : m.Laid) {Q : Nat → Prop}
    (hr : m.EntryOf .output (m.Reaching Q) r) (hq : ¬ m.EntryOf .output (m.Reaching Q) q)
    (keep : LinkBlock R → Bool) : m.influence ((m.links values).filter keep) r q = 0 := by
  refine List.sum_eq_zero fun x hx => ?_
  obtain ⟨b, hb, rfl⟩ := List.mem_map.1 hx
  by_contra hne
  obtain ⟨source, hbr, hbq, hin, hout⟩ := hm.of_coupling (List.mem_of_mem_filter hb) hne
  obtain ⟨id, hid, hreaches⟩ := hr
  obtain rfl := Option.some.inj (hid.symm.trans hbr)
  exact hq ⟨source, hbq, reaching_of_edge hin (reaching_of_edge hout hreaches)⟩

/-- **Between what is reached and what reaches the ends** every block is kept. -/
theorem Laid.influence_filter (hm : m.Laid) (hreached : m.graph.reachableFrom? starts = some reached)
    (hreaching : m.graph.reaching? ends = some reaching)
    (hr : m.EntryOf .output (m.Reaching (· ∈ ends)) r)
    (hq : m.EntryOf .output (m.Reached (· ∈ starts)) q) :
    m.influence ((m.links values).filter (LinkBlock.onPath reached reaching)) r q =
      m.influence (m.links values) r q := by
  refine sum_filter_eq fun b hb hdropped => ?_
  by_contra hne
  obtain ⟨source, hbr, hbq, hin, -⟩ := hm.of_coupling hb hne
  obtain ⟨id, hid, u, hu, hpath⟩ := hq
  obtain rfl := Option.some.inj (hid.symm.trans hbq)
  obtain ⟨id', hid', hreaches⟩ := hr
  obtain rfl := Option.some.inj (hid'.symm.trans hbr)
  have hkept := (hm.onPath_iff hb hreached hreaching).2 ⟨⟨u, hu, hpath.tail hin⟩, hreaches⟩
  rw [hdropped] at hkept
  cases hkept

/-- **Nothing is fed into what no design variable reaches.** -/
theorem Laid.seeding_eq_zero (hm : m.Laid) {P : Nat → Prop}
    (hr : ¬ m.EntryOf .output (m.Reached P) r) {d : Nat × Nat} (hd : P d.1) :
    m.seeding (m.links values) r d = 0 := by
  rw [seeding, Matrix.of_apply]
  cases hv : m.variableAt? d.1 with
  | none => rfl
  | some v =>
    dsimp only
    cases hkind : v.kind with
    | output =>
      refine if_neg fun ⟨hlt, hplace⟩ => hr ⟨d.1, ?_, d.1, hd, .refl⟩
      have hcontains : v.span.contains r = true := by
        simp only [Span.contains_iff, ModelVariable.span, Span.stop]
        omega
      exact hkind ▸ hm.holder?_eq hv hcontains
    | input =>
      refine List.sum_eq_zero fun x hx => ?_
      obtain ⟨b, hb, rfl⟩ := List.mem_map.1 hx
      by_contra hne
      obtain ⟨hwrt, hbr, hedge⟩ := hm.of_feeding hb hne
      exact hr ⟨b.of, hbr, d.1, hd, .single (hwrt ▸ hedge)⟩

/-- **Into what reaches the ends** every design variable is fed by blocks that are kept. -/
theorem Laid.seeding_filter (hm : m.Laid) (hreached : m.graph.reachableFrom? starts = some reached)
    (hreaching : m.graph.reaching? ends = some reaching)
    (hr : m.EntryOf .output (m.Reaching (· ∈ ends)) r) {d : Nat × Nat} (hd : d.1 ∈ starts) :
    m.seeding ((m.links values).filter (LinkBlock.onPath reached reaching)) r d =
      m.seeding (m.links values) r d := by
  rw [seeding, seeding, Matrix.of_apply, Matrix.of_apply]
  cases hv : m.variableAt? d.1 with
  | none => rfl
  | some v =>
    dsimp only
    cases v.kind with
    | output => rfl
    | input =>
      refine sum_filter_eq fun b hb hdropped => ?_
      by_contra hne
      obtain ⟨hwrt, hbr, -⟩ := hm.of_feeding hb hne
      obtain ⟨id, hid, hreaches⟩ := hr
      obtain rfl := Option.some.inj (hid.symm.trans hbr)
      have hkept := (hm.onPath_iff hb hreached hreaching).2 ⟨⟨d.1, hd, hwrt ▸ .refl⟩, hreaches⟩
      rw [hdropped] at hkept
      cases hkept

/-- **The shorter system gives the same solution** at every entry that reaches the ends. -/
theorem Laid.solution_eq (hm : m.Laid) (hreached : m.graph.reachableFrom? starts = some reached)
    (hreaching : m.graph.reaching? ends = some reaching)
    (hfull : (1 - m.influence (m.links values)).det ≠ 0)
    (hpruned : (1 - m.influence
      ((m.links values).filter (LinkBlock.onPath reached reaching))).det ≠ 0)
    {X : Matrix (Fin m.outputLength) (Nat × Nat) R}
    (hX : (1 - m.influence (m.links values)) * X = m.seeding (m.links values)) {d : Nat × Nat}
    (hd : d.1 ∈ starts) {x : Fin m.outputLength → R}
    (hx : (1 - m.influence ((m.links values).filter (LinkBlock.onPath reached reaching))).mulVec x =
      fun r => m.seeding ((m.links values).filter (LinkBlock.onPath reached reaching)) r d)
    (hr : m.EntryOf .output (m.Reaching (· ∈ ends)) r) : x r = X r d :=
  Subsystem.eq_of_pruned (P := fun r => m.EntryOf .output (m.Reached (· ∈ starts)) r)
    (Q := fun r => m.EntryOf .output (m.Reaching (· ∈ ends)) r) hfull hpruned
    (fun _ hr _ hq => hm.influence_eq_zero_of_reached hr hq)
    (fun _ hr _ hq => hm.influence_eq_zero_of_reaching hr hq _)
    (fun _ hr _ hq => hm.influence_filter hreached hreaching hr hq)
    (b := fun r => m.seeding (m.links values) r d) (fun _ hr => hm.seeding_eq_zero hr hd)
    (fun _ hr => hm.seeding_filter hreached hreaching hr hd) (x := fun r => X r d)
    (funext fun r => congrFun (congrFun hX r) d) hx hr

end Pruned

section Totals

variable [DirectSolver R] {m : Model R M} {g : Group R M}

/-- Of the requested pairs with some names, the last one. -/
def lastNamed (of wrt : List (DriverVariable R)) (key : String × String) :
    Option (DriverVariable R × DriverVariable R) :=
  ((pairs of wrt).filter fun p => (p.1.name, p.2.name) = key).getLast?

omit [ExactScalar R] [DirectSolver R] in
theorem standIns_eq {vs : List (DriverVariable R)} {xs : List (Nat × ModelVariable R × List Nat)}
    (h : List.Forall₂ m.Identified vs xs) : m.standIns vs = xs.map (·.1) := by
  induction h with
  | nil => rfl
  | @cons v x vs xs hv _ ih =>
    obtain ⟨id, hid, hx, -⟩ := hv
    rw [standIns] at ih ⊢
    rw [List.filterMap_cons, hid, List.map_cons, hx, ← ih]
    rfl

omit [ExactScalar R] [DirectSolver R] in
theorem mem_standIns {vs : List (DriverVariable R)} {v : DriverVariable R} (hv : v ∈ vs)
    {x : Nat × ModelVariable R × List Nat} (h : m.Identified v x) : x.1 ∈ m.standIns vs := by
  obtain ⟨id, hid, hx, -⟩ := h
  exact List.mem_filterMap.2 ⟨v, hv, by rw [hid, hx]; rfl⟩

omit [ExactScalar R] [DirectSolver R] in
theorem mem_of_lastNamed {of wrt : List (DriverVariable R)} {key : String × String}
    {p : DriverVariable R × DriverVariable R} (h : lastNamed of wrt key = some p) :
    p.1 ∈ of ∧ p.2 ∈ wrt :=
  mem_pairs.1 (List.mem_of_mem_filter (List.mem_of_getLast? h))

omit [ExactScalar R] [DirectSolver R] in
/-- What stands for a driver variable has the selected entries. -/
theorem Consistent.of_identified (hm : m.Consistent g) {v : DriverVariable R}
    {x : Nat × ModelVariable R × List Nat} (h : m.Identified v x) :
    m.variableAt? x.1 = some x.2.1 ∧ ∀ i ∈ x.2.2, i < x.2.1.size := by
  obtain ⟨id, hid, hx, hvariable, hselection⟩ := h
  obtain ⟨id', hid', heffective⟩ := effectiveVariable_eq_ok.1 hvariable
  unfold variableId at hid
  rw [hid'] at hid
  obtain rfl := Except.ok.inj hid
  refine ⟨hx ▸ heffective, fun i hi => ?_⟩
  obtain ⟨u, hu, hselection⟩ := Except.bind_eq_ok.1 hselection
  rw [hm.size_effective hvariable hu]
  dsimp only at hselection
  split at hselection
  · rw [← Except.ok.inj hselection] at hi
    exact List.mem_range.1 hi
  · split at hselection
    · cases hselection
    · rename_i hfind
      rw [← Except.ok.inj hselection] at hi
      simpa using List.find?_eq_none.1 hfind i hi

/-- **What the solver gives** are solutions of the system of the kept blocks. -/
theorem mulVec_of_solveSystem [ExactSolver R] (hm : m.Laid) {blocks : List (LinkBlock R)}
    (hblocks : ∀ b ∈ blocks, m.Fitting b)
    {designs before after : List (Nat × ModelVariable R × List Nat)}
    {design : Nat × ModelVariable R × List Nat} (hcut : designs = before ++ design :: after)
    (hv : m.variableAt? design.1 = some design.2.1) {k i : Nat} (hk : design.2.2[k]? = some i)
    (hi : i < design.2.1.size) {x : DenseMatrix R}
    (hx : solveSystem (m.chainMatrix blocks) (m.seeds blocks designs) = .ok x) :
    (1 - m.influence blocks).mulVec (fun r => x.entry r (columnCount before + k)) =
      fun r => m.seeding blocks r (design.1, i) := by
  obtain ⟨hrows, hcols, hentry⟩ := entry_chainMatrix hm hblocks
  obtain ⟨hcolumn, hseeds⟩ := entry_seeds hblocks hcut hv hk hi
  obtain ⟨-, -, hsolve⟩ := solveSystem_eq_ok.1 hx
  funext r
  have hrow := ExactSolver.solves (hrows.trans hcols.symm) hrows hsolve r (r.2.trans_eq hrows.symm) _
    hcolumn
  rw [hrows, Finset.sum_range, hseeds] at hrow
  simp only [hentry] at hrow
  exact hrow

omit [DirectSolver R] in
/-- **The block of a pair** holds the entries of a solution that its columns agree with. -/
theorem totalBlock_eq (hm : m.Laid) {response design : Nat × ModelVariable R × List Nat}
    (hv : m.variableAt? response.1 = some response.2.1)
    (hrows : ∀ i ∈ response.2.2, i < response.2.1.size) {x : DenseMatrix R} {col : Nat}
    {X : Matrix (Fin m.outputLength) (Nat × Nat) R}
    (hx : ∀ (r : Fin m.outputLength) (k j : Nat), design.2.2[k]? = some j →
      m.holder? .output r = some response.1 → x.entry r (col + k) = X r (design.1, j)) :
    totalBlock x (response.1, response.2.1) response.2.2 design.1 design.2.2 col =
      .tabulate response.2.2.length design.2.2.length fun r k =>
        m.sensitivity X (response.1, response.2.2.getD r 0) (design.1, design.2.2.getD k 0) := by
  refine DenseMatrix.tabulate_congr (f := fun r k => match response.2.1.kind with
    | .output => x.entry (response.2.1.start + response.2.2.getD r 0) (col + k)
    | .input => if response.1 = design.1 ∧ response.2.2[r]? = design.2.2[k]? then 1 else 0)
    fun r hr k hk => ?_
  have hri : response.2.2[r]? = some (response.2.2.getD r 0) := by simp [hr]
  have hkj : design.2.2[k]? = some (design.2.2.getD k 0) := by simp [hk]
  generalize response.2.2.getD r 0 = i at hri
  generalize design.2.2.getD k 0 = j at hkj
  have hi := hrows i (List.mem_of_getElem? hri)
  simp only [sensitivity, hv]
  cases hkind : response.2.1.kind with
  | input => simp only [hri, hkj, Option.some.injEq, Prod.mk.injEq]
  | output =>
    have hstop := hm.stop_le hv
    rw [hkind] at hstop
    have hplace : response.2.1.start + i < m.outputLength :=
      (Nat.add_lt_add_left hi _).trans_le hstop
    have hcontains : response.2.1.span.contains (response.2.1.start + i) = true :=
      Span.contains_iff.2 ⟨Nat.le_add_right _ _, Nat.add_lt_add_left hi _⟩
    rw [dif_pos hplace]
    exact hx ⟨_, hplace⟩ k j hkj (hkind ▸ hm.holder?_eq hv hcontains)

/-- **Leaving irrelevant blocks out of the chain rule never changes a total derivative.** In a model
whose groups do not approximate their derivatives, let `A` and `B` be made of a matrix for every
declared partial of every component, those that a component keeps being what it keeps, and let the
system of the blocks that are collected be nonsingular as well. Then each block that the chain rule
gives holds, for the last pair that was requested under its names, the entries of the solution of
`(I - A) X = B`. -/
theorem chainRuleTotals_eq [ExactSolver R] {settings : SetupSettings}
    (hbuild : ofGroup g settings = .ok m)
    (hplain : ∀ x ∈ m.schedule.groups, x.1.approximation = none)
    {of wrt : List (DriverVariable R)} {s t : ModelState R M} {totals : Totals R}
    (h : (m.chainRuleTotals of wrt).perform s = (.ok totals, t)) {reached reaching : List Bool}
    (hreached : m.graph.reachableFrom? (m.standIns wrt) = some reached)
    (hreaching : m.graph.reaching? (m.standIns of) = some reaching) {kept : List (LinkBlock R)}
    (hkept : (m.collectBlocks reached reaching m.schedule).perform s = (.ok kept, t))
    {values : Nat → DeclaredPartial R → DenseMatrix R}
    (hvalues : ∀ k c, m.components[k]? = some c → Keeping values reached reaching c k t)
    (hfitting : ∀ b ∈ m.links values, m.Fitting b)
    (hfull : (1 - m.influence (m.links values)).det ≠ 0)
    (hpruned : (1 - m.influence kept).det ≠ 0)
    {X : Matrix (Fin m.outputLength) (Nat × Nat) R}
    (hX : (1 - m.influence (m.links values)) * X = m.seeding (m.links values))
    {key : String × String} {block : DenseMatrix R} (hblock : totals.get? key = some block) :
    ∃ o w response design, lastNamed of wrt key = some (o, w) ∧ m.Identified o response ∧
      m.Identified w design ∧ block = .tabulate response.2.2.length design.2.2.length fun r k =>
        m.sensitivity X (response.1, response.2.2.getD r 0) (design.1, design.2.2.getD k 0) := by
  have hm := laid_of_ofGroup hbuild
  have hconsistent := consistent_of_ofGroup hbuild
  obtain ⟨responses, designs, reached', reaching', blocks, x, hresponses, hdesigns, hreached',
    hreaching', hblocks, hx, rfl⟩ := chainRuleTotals_eq_ok h
  rw [← standIns_eq hdesigns] at hreached'
  rw [← standIns_eq hresponses] at hreaching'
  obtain rfl := Option.some.inj (hreached.symm.trans hreached')
  obtain rfl := Option.some.inj (hreaching.symm.trans hreaching')
  obtain rfl : kept = blocks := Except.ok.inj (Prod.mk.inj (hkept.symm.trans hblocks)).1
  obtain rfl := hconsistent.collectBlocks_eq hplain hvalues hkept
  rw [Table.get?_ofList_eq_getLast] at hblock
  obtain ⟨e, he, rfl⟩ := Option.map_eq_some_iff.1 hblock
  have hfiltered := List.rel_filter (R := m.ReadFrom designs x)
    (p := fun p => (p.1.name, p.2.name) = key) (q := fun e => e.1 = key) (fun p e hp => ?_)
    (forall₂_readBlocks hresponses hdesigns x)
  swap
  · obtain ⟨_, _, _, _, -, -, -, rfl⟩ := hp
    simp
  obtain ⟨⟨o, w⟩, hlast, response, before, design, after, hresponse, hdesign, hcut, rfl⟩ :=
    getLast?_of_forall₂ hfiltered he
  refine ⟨o, w, response, design, hlast, hresponse, hdesign, ?_⟩
  obtain ⟨ho, hw⟩ := mem_of_lastNamed hlast
  obtain ⟨hv, hrows⟩ := hconsistent.of_identified hresponse
  obtain ⟨hu, hcols⟩ := hconsistent.of_identified hdesign
  refine totalBlock_eq hm hv hrows fun r k j hj hr => ?_
  have hsolution := mulVec_of_solveSystem hm
    (fun b hb => hfitting b (List.mem_of_mem_filter hb)) hcut hu hj
    (hcols j (List.mem_of_getElem? hj)) hx
  exact hm.solution_eq hreached hreaching hfull hpruned hX (mem_standIns hw hdesign) hsolution
    ⟨response.1, hr, response.1, mem_standIns ho hresponse, .refl⟩

end Totals

section Feedback

open Scheme

/-- Elimination, with a look at whether its result is a solution. -/
def solveChecked (a b : DenseMatrix Rat) : Option (DenseMatrix Rat) :=
  (Elimination.solve a b).filter fun x => decide (∀ r < a.rows, ∀ c < b.cols,
    ∑ k ∈ Finset.range a.rows, a.entry r k * x.entry k c = b.entry r c)

instance checkedSolver : DirectSolver Rat := ⟨solveChecked⟩

instance exactSolver : ExactSolver Rat where
  solves _ _ h := of_decide_eq_true (Option.filter_eq_some_iff.1 h).2

/-- A weighted sum of inputs, which knows its partials. -/
def weighted (inputs : List (String × Rat)) (output : String) : Component Rat Unit where
  declarations := .ofExcept do
    let d ← inputs.foldlM (fun d v => d.addVariable .input v.1 (.scalar 0)) (∅ : Declarations Rat)
    let d ← d.addVariable .output output (.scalar 0)
    d.addPartials .all .all .analytic
  memory := ()
  computeReal x _ := pure #[((inputs.zip x.toList).map fun v => v.1.2 * v.2).sum]
  computeComplex _ y := pure y
  computePartials _ := Action.forEach inputs fun (name, weight) => do
    let (_, p) ← get
    set ((), ← Action.ofOutcome (.ofExcept (p.set output name #[weight])))
  complexSafe := false

/-- A value that is fed back to itself, and one that depends on it. -/
def feedback : Group Rat Unit where
  settings := { GroupSettings.plain with
    connections := [("source.x", "loop.a"), ("loop.y", "loop.b"), ("loop.y", "side.c")] }
  members := .component "source" (.independent () [("x", .scalar 1)]) <|
    .component "loop" (weighted [("a", 2), ("b", 1 / 2)] "y") <|
    .component "side" (weighted [("c", 3)] "z") .empty

theorem isSome_feedback : (ofGroup feedback .standard).toOption.isSome = true := by decide +kernel

/-- The model of the value that is fed back. -/
def feedbackModel : Model Rat Unit := (ofGroup feedback .standard).toOption.get isSome_feedback

theorem ofGroup_feedback : ofGroup feedback .standard = .ok feedbackModel :=
  Except.eq_ok_of_toOption (Option.some_get isSome_feedback).symm

theorem isSome_feedbackStart : feedbackModel.start.toOption.isSome = true := by decide +kernel

/-- The model at the start. -/
def feedbackStart : ModelState Rat Unit := feedbackModel.start.toOption.get isSome_feedbackStart

/-- The derivative of the value that is fed back by the source. -/
def feedbackTotals : Outcome (ModelError Rat) (Totals Rat) × ModelState Rat Unit :=
  (feedbackModel.chainRuleTotals [.whole "loop.y"] [.whole "source.x"]).perform feedbackStart

theorem isSome_feedbackTotals : feedbackTotals.1.toOption.isSome = true := by decide +kernel

theorem perform_feedback :
    (feedbackModel.chainRuleTotals [.whole "loop.y"] [.whole "source.x"]).perform feedbackStart =
      (.ok (feedbackTotals.1.toOption.get isSome_feedbackTotals), feedbackTotals.2) :=
  Action.perform_eq_ok (Except.eq_ok_of_toOption (Option.some_get isSome_feedbackTotals).symm)

/-- The weights as blocks. -/
def feedbackValues (_ : Nat) (p : DeclaredPartial Rat) : DenseMatrix Rat :=
  .tabulate 1 1 fun _ _ => if p.wrt = "a" then 2 else if p.wrt = "b" then 1 / 2 else 3

/-- All variables come after the source. -/
def feedbackReached : List Bool := [true, true, true, true, true, true]

/-- The value that depends on the one that is fed back does not lead to it. -/
def feedbackReaching : List Bool := [true, true, true, true, false, false]

deriving instance DecidableEq for DenseMatrix

theorem keeping_feedback (k : Nat) (c : ModelComponent Rat Unit)
    (hc : feedbackModel.components[k]? = some c) :
    Keeping feedbackValues feedbackReached feedbackReaching c k feedbackTotals.2 := by
  have hcheck : ∀ e ∈ feedbackModel.components.zipIdx, ∀ p ∈ e.1.partials, ∀ ends ∈ e.1.ends? p,
      onPath feedbackReached feedbackReaching ends = true →
        ((feedbackTotals.2.components[e.2]?.bind fun kept =>
          kept.partials.blocks.get? (p.of, p.wrt)).bind Block.toDense?) =
            some (feedbackValues e.2 p) := by decide +kernel
  intro p hp ends hends hon
  have hfound := hcheck (c, k) (List.mk_mem_zipIdx_iff_getElem?.2 hc) p hp ends hends hon
  obtain ⟨block, hblock, hdense⟩ := Option.bind_eq_some_iff.1 hfound
  obtain ⟨kept, hkept, hblock⟩ := Option.bind_eq_some_iff.1 hblock
  exact ⟨kept, block, hkept, hblock, hdense⟩

theorem fitting_feedback (b : LinkBlock Rat) (hb : b ∈ feedbackModel.links feedbackValues) :
    feedbackModel.Fitting b := by
  have hcheck : ∀ b ∈ feedbackModel.links feedbackValues,
      (feedbackModel.variableAt? b.of).map (·.size) = some b.matrix.rows ∧
        (feedbackModel.variableAt? b.wrt).map (·.size) = some b.matrix.cols := by decide +kernel
  obtain ⟨hof, hwrt⟩ := hcheck b hb
  obtain ⟨v, hv, hrows⟩ := Option.map_eq_some_iff.1 hof
  obtain ⟨u, hu, hcols⟩ := Option.map_eq_some_iff.1 hwrt
  exact ⟨v, u, hv, hu, hrows.symm, hcols.symm⟩

/-- A matrix of three rows and columns. -/
def ofRows (rows : List (List Rat)) :
    Matrix (Fin feedbackModel.outputLength) (Fin feedbackModel.outputLength) Rat :=
  .of fun r c => (rows.getD r []).getD c 0

theorem full_feedback : (1 - feedbackModel.influence (feedbackModel.links feedbackValues)) *
    ofRows [[1, 0, 0], [4, 2, 0], [12, 6, 1]] = 1 := by decide +kernel

theorem pruned_feedback : (1 - feedbackModel.influence ((feedbackModel.links feedbackValues).filter
    (LinkBlock.onPath feedbackReached feedbackReaching))) *
      ofRows [[1, 0, 0], [4, 2, 0], [0, 0, 1]] = 1 := by decide +kernel

/-- A source that feeds two into a value, which feeds back half of itself, moves it by four, as it
does where the value that depends on it is not left out. -/
theorem totals_feedback : ∃ totals t block X,
    (feedbackModel.chainRuleTotals [.whole "loop.y"] [.whole "source.x"]).perform feedbackStart =
      (.ok totals, t) ∧
    (1 - feedbackModel.influence (feedbackModel.links feedbackValues)) * X =
      feedbackModel.seeding (feedbackModel.links feedbackValues) ∧
    totals.get? ("loop.y", "source.x") = some block ∧ block.entry 0 0 = 4 ∧
    ∃ o w response design, lastNamed [.whole "loop.y"] [.whole "source.x"] ("loop.y", "source.x") =
      some (o, w) ∧ feedbackModel.Identified o response ∧ feedbackModel.Identified w design ∧
      block = .tabulate response.2.2.length design.2.2.length fun r k =>
        feedbackModel.sensitivity X (response.1, response.2.2.getD r 0)
          (design.1, design.2.2.getD k 0) := by
  have hplain : ∀ x ∈ feedbackModel.schedule.groups, x.1.approximation = none := by
    have hnone : feedbackModel.schedule.groups.map (·.1.number) = [] := by decide +kernel
    simp [List.map_eq_nil_iff.1 hnone]
  have hreached : feedbackModel.graph.reachableFrom?
      (feedbackModel.standIns [.whole "source.x"]) = some feedbackReached := by decide +kernel
  have hreaching : feedbackModel.graph.reaching?
      (feedbackModel.standIns [.whole "loop.y"]) = some feedbackReaching := by decide +kernel
  obtain ⟨responses, designs, reached, reaching, kept, -, hresponses, hdesigns, hreached',
    hreaching', hkept, -⟩ := chainRuleTotals_eq_ok perform_feedback
  rw [← standIns_eq hdesigns] at hreached'
  rw [← standIns_eq hresponses] at hreaching'
  obtain rfl := Option.some.inj (hreached.symm.trans hreached')
  obtain rfl := Option.some.inj (hreaching.symm.trans hreaching')
  have hfilter := (consistent_of_ofGroup ofGroup_feedback).collectBlocks_eq hplain keeping_feedback
    hkept
  have hfull := Matrix.det_ne_zero_of_right_inverse full_feedback
  have hpruned := Matrix.det_ne_zero_of_right_inverse pruned_feedback
  rw [← hfilter] at hpruned
  have hX : (1 - feedbackModel.influence (feedbackModel.links feedbackValues)) *
      (ofRows [[1, 0, 0], [4, 2, 0], [12, 6, 1]] *
        feedbackModel.seeding (feedbackModel.links feedbackValues)) =
      feedbackModel.seeding (feedbackModel.links feedbackValues) := by
    rw [← Matrix.mul_assoc, full_feedback, Matrix.one_mul]
  have hentry : ((feedbackTotals.1.toOption.get isSome_feedbackTotals).get?
      ("loop.y", "source.x")).map (·.entry 0 0) = some 4 := by decide +kernel
  obtain ⟨block, hblock, hfour⟩ := Option.map_eq_some_iff.1 hentry
  exact ⟨_, _, block, _, perform_feedback, hX, hblock, hfour,
    chainRuleTotals_eq ofGroup_feedback hplain perform_feedback hreached hreaching hkept
      keeping_feedback fitting_feedback hfull hpruned hX hblock⟩

end Feedback

end Model

end Sensitivity
