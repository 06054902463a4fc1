import Mathlib
import Sensitivity.Proofs.Approximation.Shapes
import Sensitivity.Proofs.Approximation.Slopes

/-!
# Differentiating polynomials

A stencil of some order adds up moments: its weights times powers of its offsets. Those up to the order
vanish, except for the first one, which is its denominator (`Stencil.Exact`). In exact arithmetic the
difference of a polynomial is then its derivative, as long as the degree does not exceed the order,
whatever the point and the step (`Stencil.Exact.derivative`).

A scheme stores these derivatives for every request whose directions move one entry at a time, on every
target that returns and whose values follow polynomials
(`Scheme.derivatives_of_computeJacobian`).
-/

namespace Sensitivity

open Polynomial

variable {R σ γ : Type} [ExactScalar R]

namespace Stencil

/-- The weights times powers of the offsets, summed up; the point itself has offset zero. -/
def moment (st : Stencil R) (k : Nat) : R :=
  st.baseline * 0 ^ k + (st.points.map fun p => p.2 * p.1 ^ k).sum

/-- A stencil whose moments up to an order are those of a derivative. -/
structure Exact (st : Stencil R) (order : Nat) : Prop where
  order_pos : 0 < order
  denominator_ne_zero : st.denominator ≠ 0
  moment_eq : ∀ k ≤ order, st.moment k = if k = 1 then st.denominator else 0

/-- **Every stencil is exact up to its order.** -/
theorem exact_of_ofForm {form : Form} {order : Nat} {st : Stencil R}
    (h : ofForm? form order = some st) : st.Exact order := by
  have horder : 0 < order := by
    unfold ofForm? at h
    split at h <;> cases h <;> decide
  have hdenominator : st.denominator ≠ 0 := by
    unfold ofForm? at h
    split at h <;> cases h <;> simp only [ExactScalar.scientific] <;> norm_num
  refine ⟨horder, hdenominator, fun k hk => ?_⟩
  unfold ofForm? at h
  split at h <;> cases h <;> interval_cases k <;>
    simp only [moment, ExactScalar.scientific] <;> norm_num

/-- No stencil is exact beyond its order. -/
theorem not_exact_of_ofForm {form : Form} {order : Nat} {st : Stencil R}
    (h : ofForm? form order = some st) : ¬ st.Exact (order + 1) := by
  intro hexact
  have hmoment := hexact.moment_eq (order + 1) le_rfl
  unfold ofForm? at h
  split at h <;> cases h <;> simp only [moment, ExactScalar.scientific] at hmoment <;>
    norm_num at hmoment

/-- The weighted sum of the values at the points and at the point itself. -/
theorem sumEntries_eq_sum (points : List (R × R)) (f : R → R) (start : R) :
    sumEntries points (points.map fun p => some (f p.1)) start =
      start + (points.map fun p => p.2 * f p.1).sum := by
  unfold sumEntries
  induction points generalizing start with
  | nil => simp
  | cons p rest ih =>
    simp only [List.map_cons, List.zip_cons_cons, List.foldl_cons, List.sum_cons]
    rw [ih, add_assoc]

/-- What a stencil makes of a sum of powers is the sum of its moments. -/
theorem sum_powers (st : Stencil R) (n : Nat) (c : Nat → R) :
    st.baseline * ∑ k ∈ Finset.range n, c k * 0 ^ k +
        (st.points.map fun p => p.2 * ∑ k ∈ Finset.range n, c k * p.1 ^ k).sum =
      ∑ k ∈ Finset.range n, c k * st.moment k := by
  simp only [moment, mul_add, Finset.sum_add_distrib, Finset.mul_sum]
  congr 1
  · exact Finset.sum_congr rfl fun k _ => by ring
  · induction st.points with
    | nil => simp
    | cons p rest ih =>
      simp only [List.map_cons, List.sum_cons, ih, mul_add, Finset.sum_add_distrib]
      congr 1
      exact Finset.sum_congr rfl fun k _ => by ring

/-- **The difference of a polynomial is its derivative**, if its degree is at most the order. -/
theorem Exact.derivative {st : Stencil R} {order : Nat} (hst : st.Exact order) {P : R[X]}
    (hP : P.natDegree ≤ order) (x : R) {h : R} (hh : h ≠ 0) :
    sumEntries st.points (st.points.map fun p => some (P.eval (x + p.1 * h)))
      (st.baseline * P.eval x) / st.denominator / h = P.derivative.eval x := by
  -- around `x`, the polynomial is a sum of powers of the offset
  let c (k : Nat) : R := (taylor x P).coeff k * h ^ k
  have hexpand (o : R) : P.eval (x + o * h) = ∑ k ∈ Finset.range (order + 1), c k * o ^ k := by
    have hdegree : (taylor x P).natDegree < order + 1 := by
      rw [natDegree_taylor]
      omega
    rw [add_comm, ← taylor_eval, eval_eq_sum_range' hdegree]
    exact Finset.sum_congr rfl fun k _ => by ring
  have hpoint : P.eval x = ∑ k ∈ Finset.range (order + 1), c k * 0 ^ k := by
    simpa using hexpand 0
  -- of the moments only the first one is left
  have hsum : sumEntries st.points (st.points.map fun p => some (P.eval (x + p.1 * h)))
      (st.baseline * P.eval x) = c 1 * st.denominator := by
    rw [sumEntries_eq_sum st.points fun o => P.eval (x + o * h)]
    simp only [hexpand]
    rw [hpoint, sum_powers, Finset.sum_eq_single_of_mem 1 
      (Finset.mem_range.2 (Nat.lt_succ_of_le hst.order_pos))]
    · rw [hst.moment_eq 1 hst.order_pos, if_pos rfl]
    · intro k hk hne
      rw [hst.moment_eq k (by have := Finset.mem_range.1 hk; omega), if_neg hne, mul_zero]
  rw [hsum, mul_div_cancel_right₀ _ hst.denominator_ne_zero, ← taylor_coeff_one]
  exact (mul_div_assoc _ _ _).trans (by rw [pow_one, div_self hh, mul_one])

/-- Where every state with the view of a point responds alike, the points of a stencil sum up to the
same as at the point itself. -/
theorem getElem?_of_sumPoints {T : Target R σ} {view : σ → γ} (hT : T.Restoring view) {s t u : σ}
    {perturbations : List (Perturbation R)} {of : List String} (hn : of.Nodup)
    {points : List (R × R)} {sums out : Table String (List R)} (hm : T.Moved s t)
    (hv : view t = view s)
    (h : (sumPoints T s perturbations .all of points sums).perform t = (.ok out, u)) {name : String}
    (hname : name ∈ of) {acc : List R} (hacc : sums.get? name = some acc) {i : Nat} {f : R → R}
    (hf : ∀ w, view w = view s → ∀ offset vs,
      T.response (moves perturbations offset) .real name .real w = .ok vs →
        vs[i]? = some (f offset)) :
    ∃ vs, out.get? name = some vs ∧
      vs[i]? = acc[i]?.map (sumEntries points (points.map fun p => some (f p.1))) := by
  induction points generalizing sums t acc with
  | nil =>
    cases h
    exact ⟨acc, hacc, by cases acc[i]? <;> rfl⟩
  | cons point rest ih =>
    obtain ⟨offset, weight⟩ := point
    obtain ⟨own, read, w, hresponse, hread, hsums, hrest⟩ := response_of_sumPoints hn h hname hacc
    have hmoved : T.Moved s w := by
      have := preserves_moved_evaluatePoint s perturbations offset .all of t hm
      rw [hread] at this
      exact this (Outcome.answers_ok read)
    obtain ⟨vs, hvs, hentry⟩ := ih (.restore hmoved) (hT.restore hmoved) hrest hsums
    refine ⟨vs, hvs, hentry.trans ?_⟩
    rw [getElem?_addWeighted, hf t hv offset own hresponse]
    cases acc[i]? <;> rfl

end Stencil

/-- An entry that no later one overwrites stays. -/
theorem Table.get?_ofList_of_last {κ α : Type} [DecidableEq κ] {es : List (κ × α)} {n : Nat}
    {e : κ × α} (he : es[n]? = some e)
    (hlast : ∀ (m : Nat) e', n < m → es[m]? = some e' → e'.1 ≠ e.1) :
    (ofList es).get? e.1 = some e.2 := by
  have hrest : (es.drop (n + 1)).filter (fun e' => e'.1 = e.1) = [] := by
    refine List.filter_eq_nil_iff.2 fun e' he' => ?_
    obtain ⟨m, hm⟩ := List.mem_iff_getElem?.1 he'
    rw [List.getElem?_drop] at hm
    simpa using hlast _ e' (by omega) hm
  have hsplit : es = es.take n ++ e :: es.drop (n + 1) := by
    obtain ⟨hn, rfl⟩ := List.getElem?_eq_some_iff.1 he
    rw [← List.drop_eq_getElem_cons hn, List.take_append_drop]
  rw [get?_ofList_eq_getLast, hsplit, List.filter_append, List.filter_cons_of_pos (by simp), hrest,
    List.getLast?_concat]
  rfl

namespace Scheme

variable {T : Target R σ} {view : σ → γ}

/-- At every state with the view of `t`, entry `i` of `of` is the polynomial `P` of entry `j` of
`wrt`, which is `x` at `t`: it is what is stored, and what moves of that entry make of it. -/
structure Follows (T : Target R σ) (view : σ → γ) (t : σ) (of : String) (i : Nat) (wrt : String)
    (j : Nat) (P : R[X]) (x : R) : Prop where
  entry : ∀ vs, T.values t wrt .real = .ok vs → vs[j]? = some x
  stored : ∀ vs, T.values t of .real = .ok vs → vs[i]? = some (P.eval x)
  moved : ∀ u, view u = view t → ∀ δ vs,
    T.response [⟨wrt, j, .real δ⟩] .real of .real u = .ok vs → vs[i]? = some (P.eval (x + δ))

/-- Finite differences have the stencil of their form and their order. -/
theorem ofForm?_of_stencil {s : Settings R} {found : Option (Stencil R)} (h : stencil s = .ok found)
    (hmethod : s.method = .finiteDifference) :
    ∃ st, found = some st ∧ Stencil.ofForm? s.form s.resolvedOrder = some st := by
  unfold stencil at h
  split at h
  · unfold Stencil.ofForm at h
    split at h
    · rename_i st hform
      cases h
      exact ⟨st, rfl, hform⟩
    · cases h
  · rename_i hcomplex
    rw [hmethod] at hcomplex
    cases hcomplex

/-- **A value that a difference yields for a polynomial is its derivative.** -/
theorem derivative_of_difference (hT : T.Restoring view) {t u u' : σ} (hu : view u = view t)
    {st : Stencil R} {order : Nat} (hst : st.Exact order) {h : R} (hh : h ≠ 0) {of wrt : String}
    {i j : Nat} {names : List String} (hnames : names.Nodup) (hof : of ∈ names)
    {baseline numerators : Table String (List R)}
    (hbaseline : ∀ vs, baseline.get? of = some vs → T.values t of .real = .ok vs)
    (hdifference : (st.difference T [⟨wrt, j, h⟩] .all names baseline).perform u =
      (.ok numerators, u')) {P : R[X]} {x : R} (hP : Follows T view t of i wrt j P x)
    (hdegree : P.natDegree ≤ order) {vs : List R} {v : R} (hvs : numerators.get? of = some vs)
    (hv : vs[i]? = some v) : v / h = P.derivative.eval x := by
  obtain ⟨f, start, sums, hf, hstart, hsum, hout⟩ := Stencil.sums_of_difference hdifference hof
  have hresponds (u₁ : σ) (hu₁ : view u₁ = view u) (o : R) (ws : List R)
      (hws : T.response (Stencil.moves [⟨wrt, j, h⟩] o) .real of .real u₁ = .ok ws) :
      ws[i]? = some (P.eval (x + o * h)) := hP.moved u₁ (hu₁.trans hu) (o * h) ws hws
  obtain ⟨ws, hws, hentry⟩ :=
    Stencil.getElem?_of_sumPoints hT hnames .start rfl hsum hof hstart hresponds
  rw [hws, hvs, Option.map_some, Option.some.injEq] at hout
  subst hout
  rw [List.getElem?_map, hP.stored f (hbaseline f hf), Option.map_some, Option.map_some] at hentry
  rw [List.getElem?_map, hentry, Option.map_some, Option.some.injEq] at hv
  rw [← hv]
  exact hst.derivative hdegree x hh

/-- No direction that serves a request moves several entries. -/
def Uncolored (plan : Plan R) (r : Nat) : Prop :=
  ∀ d ∈ plan.directions, r ∈ d.requests → d.isColored = false

/-- A request that lets no columns merge is served one entry at a time. -/
theorem uncolored_of_build [StrictScalar R] {requests : List (Request R)} {sizes : Sizes}
    {plan : Plan R} (h : Plan.build requests sizes = .ok plan) {r : Nat} {q : Request R}
    (hq : requests[r]? = some q) (hmerge : q.settings.directional = false ∨ q.pattern = none) :
    Uncolored plan r := by
  intro d hd hr
  obtain ⟨k, hk, rfl⟩ := Direction.mem_requests.1 hr
  obtain ⟨seed, hseed, hk⟩ := List.mem_flatMap.1 hk
  rw [Direction.isColored, Plan.seeds_eq_singleton h hd hseed hk hq hmerge]
  rfl

/-- **Differences of polynomials are their derivatives**: on a target that returns, a computation stores
for every request whose directions move one entry at a time the derivatives of what its entries
follow, as long as no degree exceeds the order of the difference. Of several requests for a pair, the
last one is stored. -/
theorem derivatives_of_computeJacobian (hT : T.Restoring view) (hgraph : ∀ u, T.graph u = none)
    {s : Scheme R} {t : σ} {d : Diagnostics} (hcurrent : s.Current T) {jac : Jacobian R}
    {w : Session R σ} (h : (computeJacobian T).perform ⟨s, d, t⟩ = (.ok jac, w)) :
    ∃ sizes plan, s.sizes T t = .ok sizes ∧ Plan.build s.requests sizes = .ok plan ∧
      ∀ (r : Nat) q, s.requests[r]? = some q →
        (∀ (r' : Nat) q', r < r' → s.requests[r']? = some q' → (q'.of, q'.wrt) ≠ (q.of, q.wrt)) →
        (settingsAt T t q.settings).method = .finiteDifference → Uncolored plan r →
        ∃ rows cols block, q.rows sizes = .ok rows ∧ q.cols sizes = .ok cols ∧
          jac.get? (q.of, q.wrt) = some block ∧
          ∀ (P : Nat → Nat → R[X]) (x : Nat → R),
            (∀ i ∈ rows, ∀ j ∈ cols, Follows T view t q.of i q.wrt j (P i j) (x j) ∧
              (P i j).natDegree ≤ (settingsAt T t q.settings).resolvedOrder) →
            block.Holds q.pattern rows.length cols.length fun k l v => ∃ i j, rows[k]? = some i ∧
              cols[l]? = some j ∧ v = (P i j).derivative.eval (x j) := by
  obtain ⟨c, frame, es, a, hc, hframe, hes, ha, rfl⟩ := delivered_of_computeJacobian hT hcurrent h
  obtain ⟨sizes, hsizes, hget⟩ := hc.sizes
  refine ⟨sizes, c.plan, hsizes, (Plan.build_congr hget _).symm.trans hc.build,
    fun r q hr hlast hmethod huncolored => ?_⟩
  obtain ⟨slot, hslot, hfilled⟩ := ha.slot r q hr
  obtain ⟨cols, hcols, -⟩ := hfilled.block
  have hvalid := (Plan.build_eq_ok hc.build).1 q (List.mem_of_getElem? hr)
  refine ⟨slot.rows, cols, slot.block, Request.rows_congr hget q ▸ hfilled.rows_eq,
    Request.cols_congr hget q ▸ hcols, ?_, fun P x hP => ?_⟩
  · have hentry : (a.slots.map fun s => ((s.of, s.wrt), s.block))[r]? =
        some ((q.of, q.wrt), slot.block) := by
      rw [List.getElem?_map, hslot, Option.map_some, hfilled.of_eq, hfilled.wrt_eq]
    refine Table.get?_ofList_of_last hentry fun m e hm he => ?_
    obtain ⟨slot', hslot', rfl⟩ := Option.map_eq_some_iff.1 (List.getElem?_map ▸ he)
    obtain ⟨q', hq'⟩ : ∃ q', s.requests[m]? = some q' := by
      have hm' : m < s.requests.length := ha.length_eq ▸ (List.getElem?_eq_some_iff.1 hslot').1
      exact ⟨_, List.getElem?_eq_getElem hm'⟩
    obtain ⟨slot'', hslot'', hfilled'⟩ := ha.slot m q' hq'
    obtain rfl := Option.some.inj (hslot'.symm.trans hslot'')
    rw [hfilled'.of_eq, hfilled'.wrt_eq]
    exact hlast m q' hm hq'
  · have halone (d : Direction) (hd : d ∈ c.plan.directions) (seed : Seed) (hseed : seed ∈ d.seeds)
        (k : Column) (hk : k ∈ seed.columns) (hkr : k.request = r) : d.seeds = [seed] := by
      have hserves : r ∈ d.requests :=
        Direction.mem_requests.2 ⟨k, List.mem_flatMap.2 ⟨seed, hseed, hk⟩, hkr⟩
      have hlength : d.seeds.length ≤ 1 := by
        simpa [Direction.isColored] using huncolored d hd hserves
      obtain ⟨first, rest, hseeds⟩ := List.exists_cons_of_ne_nil (List.ne_nil_of_mem hseed)
      rw [hseeds, List.length_cons] at hlength
      obtain rfl := List.length_eq_zero_iff.1 (by omega : rest.length = 0)
      rw [hseeds] at hseed ⊢
      rw [List.mem_singleton.1 hseed]
    refine hfilled.holds hvalid hcols fun k hk l hl v hcell => ?_
    have hi := List.getElem?_eq_getElem hk
    have hj := List.getElem?_eq_getElem hl
    obtain ⟨u, d, active, found, nominal, step, numerators, u', vs, v', hu, ⟨u₁, hactive⟩, -, hof,
      hstencil, -, hstep, hmeasure, hvs, hv, rfl⟩ :=
      measured_of_cell hc hframe (fun u hu => (inRole_of_onSession hu).right) hes hr halone hcols hi
        hj hcell
    obtain ⟨hfollows, hdegree⟩ := hP _ (List.mem_of_getElem? hi) _ (List.mem_of_getElem? hj)
    simp only [activeSet, hgraph u₁] at hactive
    cases hactive
    obtain ⟨st, rfl, hform⟩ := ofForm?_of_stencil hstencil hmethod
    rw [measure, st.difference_focus] at hmeasure
    obtain ⟨methods, -, hframe⟩ := Except.bind_eq_ok.1 hframe
    obtain ⟨⟨nominals, baseline⟩, hvalues, hframe⟩ := Except.bind_eq_ok.1 hframe
    cases hframe
    exact ⟨_, _, hi, hj, derivative_of_difference hT (congrArg Prod.snd hu)
      (Stencil.exact_of_ofForm hform)
      (ne_zero_of_entryStep (Request.of_validate hvalid).1 hstep) (nodup_eraseDups _) hof
      (fun vs hvs => (values_of_readValues hvalues).2 hvs) hmeasure hfollows hdegree hvs hv⟩

section Cubes

/-- A target whose state is `x`: every entry of `y` is the cube of the same entry of `x`. -/
def cubes : Target Rat (List Rat) where
  size x _ := .ok x.length
  values x name _ := .ok (if name = "y" then x.map fun v => v ^ 3 else x)
  perturb _ index delta := modify fun x =>
    match delta with
    | .real h => x.modify index (· + h)
    | .imag _ => x
  evaluate _ _ := pure ()
  restore saved _ := saved
  complexCapable _ := false
  complexStepActive _ := false
  enter _ _ x := x
  leave x := x
  graph _ := none

theorem cubes_restoring : cubes.Restoring id := ⟨fun _ => rfl, fun _ _ _ => rfl⟩

/-- An entry of `y` is the cube of its own entry of `x`, and constant in the others. -/
theorem cubes_follow (xs : List Rat) {i j : Nat} {a b : Rat} (hi : xs[i]? = some a)
    (hj : xs[j]? = some b) :
    Follows cubes id xs "y" i "x" j (if i = j then X ^ 3 else C (a ^ 3)) b where
  entry vs h := by
    cases h
    exact hj
  stored vs h := by
    cases h
    by_cases hij : i = j
    · subst hij
      obtain rfl := Option.some.inj (hi.symm.trans hj)
      simp [hi]
    · simp [hi, hij]
  moved u hu δ vs h := by
    obtain rfl : u = xs := hu
    obtain rfl : (u.modify j (· + δ)).map (fun v => v ^ 3) = vs := Except.ok.inj h
    rw [List.getElem?_map, List.getElem?_modify]
    by_cases hij : i = j
    · subst hij
      obtain rfl := Option.some.inj (hi.symm.trans hj)
      simp [hi]
    · simp [hi, hij, Ne.symm hij]

/-- Central differences of fourth order for `y` by `x`, with step one half. -/
def cubed : Scheme Rat :=
  { empty "model" .group .warn with
    requests := [Request.whole "y" "x" { Settings.finiteDifference with
      form := .central, order := some 4, step := some (1 / 2) }] }

/-- The derivatives of cubes at three and five, from differences with step one half. -/
theorem derivatives_cubes : ∃ jac w block,
    (computeJacobian cubes).perform ⟨cubed, default, [3, 5]⟩ = (.ok jac, w) ∧
    jac.get? ("y", "x") = some block ∧ block.Holds none 2 2 fun k l v =>
      v = if k = l then ([27, 75].getD k 0 : Rat) else 0 := by
  have hrun : ((computeJacobian cubes).perform ⟨cubed, default, [3, 5]⟩).1.toOption.isSome =
      true := by decide +kernel
  obtain ⟨jac, hjac⟩ := Option.isSome_iff_exists.1 hrun
  have h := Action.perform_eq_ok (Except.eq_ok_of_toOption hjac)
  have hcurrent : cubed.Current cubes := fun _ hc => nomatch hc
  obtain ⟨sizes, plan, hsizes, hplan, hall⟩ :=
    derivatives_of_computeJacobian cubes_restoring (fun _ => rfl) hcurrent h
  obtain ⟨rows, cols, block, hrows, hcols, hblock, hholds⟩ := hall 0 _ rfl
    (fun r q hr hq => absurd (List.getElem?_eq_some_iff.1 hq).1 (by simp [cubed]; omega)) rfl
    (uncolored_of_build hplan rfl (.inl rfl))
  have hknown : cubed.sizes cubes [3, 5] = .ok (.ofList [("y", 2), ("x", 2)]) := rfl
  obtain rfl := Except.ok.inj (hknown.symm.trans hsizes)
  obtain rfl : [0, 1] = rows := Except.ok.inj hrows
  obtain rfl : [0, 1] = cols := Except.ok.inj hcols
  let point (j : Nat) : Rat := [3, 5].getD j 0
  have hpoint {j : Nat} (hj : j ∈ [0, 1]) : ([3, 5] : List Rat)[j]? = some (point j) := by
    have hlt : j < 2 := by simp at hj; omega
    simp [point, hlt]
  refine ⟨jac, _, block, h, hblock, (hholds (fun i j => if i = j then X ^ 3 else C (point i ^ 3)) point
    fun i hi j hj => ⟨cubes_follow _ (hpoint hi) (hpoint hj), ?_⟩).imp fun k hk l hl v hv => ?_⟩
  · change _ ≤ 4
    split
    · rw [natDegree_X_pow]
      decide
    · rw [natDegree_C]
      decide
  · obtain ⟨i, j, hi, hj, rfl⟩ := hv
    have hk : k < 2 := hk
    have hl : l < 2 := hl
    have hik : i = k := by interval_cases k <;> simpa using hi.symm
    have hjl : j = l := by interval_cases l <;> simpa using hj.symm
    subst hik hjl
    by_cases hij : i = j
    · subst hij
      rw [if_pos rfl, if_pos rfl, derivative_X_pow]
      interval_cases i <;> norm_num [point]
    · rw [if_neg hij, if_neg hij, derivative_C, eval_zero]

end Cubes

end Scheme

end Sensitivity
