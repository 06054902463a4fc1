import Mathlib
import Sensitivity.Proofs.Approximation.Quotients
import Sensitivity.Proofs.Exact

/-!
# Measuring slopes

A variable tracks an entry when it changes in proportion to what is added to it, each of its
entries with a slope of its own (`Target.Tracks`). In exact arithmetic the quotients of all methods
are then the slopes, whatever the step: differences of all forms and orders, and complex steps
(`Scheme.slope_of_quotient`). A scheme whose columns do not merge fills its blocks with them
(`Scheme.slopes_of_computeJacobian`).
-/

namespace Sensitivity

/-- The rational numbers are exact. -/
instance exactRational : ExactScalar Rat where
  __ := Scheme.rationalScalar
  __ := (inferInstance : Field Rat)
  beq_iff := beq_iff_eq
  zero_le_zero := le_refl (0 : Rat)
  max_max x y := by
    change (if (if x < y then y else x) < y then y else if x < y then y else x) =
      if x < y then y else x
    split_ifs <;> simp_all
  cast_injective := Nat.cast_injective
  scientific m down e := by
    change Rat.ofScientific m down e = _
    rw [Rat.ofScientific_def]
    cases down
    · simp
    · simp [Rat.mkRat_eq_div]

variable {R σ γ : Type} [ExactScalar R]

/-- At a state, with some components running, a variable tracks an entry of another one: in real
arithmetic its values move by the slopes times what is added to the entry, and in complex arithmetic
its imaginary parts are the slopes times the imaginary part that is added. -/
structure Target.Tracks (T : Target R σ) (t : σ) (active : ActiveSet) (of wrt : String) (j : Nat)
    (slope : Nat → R) : Prop where
  real : ∀ f, T.values t of .real = .ok f → ∀ δ vs,
    (T.focus active).response [⟨wrt, j, .real δ⟩] .real of .real t = .ok vs →
      ∀ (i : Nat) x, f[i]? = some x → vs[i]? = some (x + δ * slope i)
  imag : T.complexCapable t = true → ∀ owner step h vs,
    (T.focus active).response [⟨wrt, j, .imag h⟩] .complex of .imag (T.enter owner step t) =
      .ok vs → ∀ (i : Nat) v, vs[i]? = some v → v = h * slope i

/-- The weighted sum of values that are all there. -/
theorem Stencil.sumEntries_eq_total (st : Stencil R) (slope x : R) :
    sumEntries st.points (st.points.map fun p => some (x + p.1 * slope)) (st.baseline * x) =
      st.total slope x := by
  unfold sumEntries total
  generalize st.baseline * x = start
  induction st.points generalizing start with
  | nil => rfl
  | cons p rest ih => exact ih _

namespace Scheme

variable {T : Target R σ} {view : σ → γ}

/-- The step of valid settings is not zero, nor is that of their fallback. -/
theorem ne_zero_of_entryStep {t : σ} {own : Settings R} (hvalid : own.validate = .ok ())
    {site : Site R} {nominal : List R} {j : Nat} {h : R}
    (hstep : entryStep site (settingsAt T t own) nominal j = some h) : h ≠ 0 := by
  have hminimum : (settingsAt T t own).minimumStep = own.minimumStep := by
    unfold settingsAt
    split
    · rfl
    · split <;> rfl
  exact Steps.ne_zero_of_step (hminimum ▸ Settings.minimumStep_ne_zero hvalid) hstep

/-- Finite differences have a faithful stencil, and a complex step has none. -/
theorem stencil_cases {s : Settings R} {found : Option (Stencil R)} (h : stencil s = .ok found) :
    (s.method = .finiteDifference ∧ ∃ st, found = some st ∧ st.Faithful) ∨
      s.method = .complexStep ∧ found = none := by
  unfold stencil at h
  split at h
  · rename_i hmethod
    refine .inl ⟨hmethod, ?_⟩
    unfold Stencil.ofForm at h
    split at h
    · rename_i st hform
      cases h
      exact ⟨st, rfl, Stencil.faithful_of_ofForm hform⟩
    · cases h
  · rename_i hmethod
    cases h
    exact .inr ⟨hmethod, rfl⟩

/-- **Where a variable tracks an entry, its quotients are the slopes**, whatever the method and
the step. -/
theorem slope_of_quotient {active : ActiveSet} {owner : String} {site : Site R} {own : Settings R}
    {t : σ} {of wrt : String} {i j : Nat} {slope : Nat → R}
    (htracks : T.Tracks t active of wrt j slope) (hvalid : own.validate = .ok ()) {v : R}
    (h : quotient (T.focus active) owner site own t of i wrt j = .ok v) : v = slope i := by
  unfold quotient at h
  obtain ⟨nominal, -, h⟩ := Except.bind_eq_ok.1 h
  obtain ⟨step, hstep, h⟩ := Except.bind_eq_ok.1 h
  obtain ⟨found, hfound, h⟩ := Except.bind_eq_ok.1 h
  rw [Outcome.ofOption_eq_ok] at hstep
  rw [Outcome.ofExcept_eq_ok] at hfound
  have hne : step ≠ 0 := ne_zero_of_entryStep hvalid hstep
  rcases stencil_cases hfound with ⟨-, st, rfl, hst⟩ | ⟨hmethod, rfl⟩
  · obtain ⟨f, hf, h⟩ := Except.bind_eq_ok.1 h
    obtain ⟨x, hx, h⟩ := Except.bind_eq_ok.1 h
    obtain ⟨entries, hentries, h⟩ := Except.bind_eq_ok.1 h
    cases h
    rw [Outcome.ofOption_eq_ok] at hx
    have hall : entries = st.points.map fun p => some (x + p.1 * (step * slope i)) := by
      have hentries := Except.mapM_eq_ok.1 hentries
      refine List.ext_getElem (by rw [List.length_map, hentries.length_eq]) fun n hn hn' => ?_
      have hn'' : n < st.points.length := by rwa [List.length_map] at hn'
      obtain ⟨vs, hvs, hentry⟩ := Except.bind_eq_ok.1 (hentries.get hn'' hn)
      have hentry : vs[i]? = entries[n] := Except.ok.inj hentry
      rw [← hentry, htracks.real f hf _ vs hvs i x hx, List.getElem_map, mul_assoc]
      rfl
    rw [hall, Stencil.sumEntries_eq_total, hst]
    exact mul_div_cancel_left₀ _ hne
  · obtain ⟨vs, hvs, h⟩ := Except.bind_eq_ok.1 h
    obtain ⟨w, hw, h⟩ := Except.bind_eq_ok.1 h
    cases h
    rw [Outcome.ofOption_eq_ok] at hw
    rw [htracks.imag (complexCapable_of_method hmethod) _ _ _ vs hvs i w hw]
    exact mul_div_cancel_left₀ _ hne

/-- **Where variables track entries, a computation without patterns fills its blocks with the
slopes.** -/
theorem slopes_of_computeJacobian (hT : T.Exact view)
    (hgraph : ∀ {s t}, view s = view t → T.graph s = T.graph t) {s : Scheme R} {t : σ}
    {d : Diagnostics} (hcurrent : s.Current T)
    (hdistinct : (s.requests.map fun q => (q.of, q.wrt)).Nodup)
    (hpattern : ∀ q ∈ s.requests, q.pattern = none)
    (hvalid : ∀ q ∈ s.requests, q.settings.validate = .ok ())
    (slope : String → String → Nat → Nat → R)
    (htracks : ∀ sizes, s.sizes T t = .ok sizes → ∀ q ∈ s.requests, ∀ cols,
      q.cols sizes = .ok cols → ∀ j ∈ cols, ∀ d u active, s.activeSet (T.graph u) d = .ok active →
        d.perturbed = [q.wrt] → q.of ∈ s.ofNames d.requests →
          T.Tracks t active q.of q.wrt j fun i => slope q.of q.wrt i j)
    {j : Jacobian R} {w : Session R σ} (h : (computeJacobian T).perform ⟨s, d, t⟩ = (.ok j, w)) :
    ∃ sizes, s.sizes T t = .ok sizes ∧ j.keys = s.requests.map (fun q => (q.of, q.wrt)) ∧
      ∀ q ∈ s.requests, ∃ rows cols m, q.rows sizes = .ok rows ∧ q.cols sizes = .ok cols ∧
        j.get? (q.of, q.wrt) = some (.dense m) ∧ m.rows = rows.length ∧ m.cols = cols.length ∧
        ∀ k l i j, rows[k]? = some i → cols[l]? = some j →
          m.get? k l = some (slope q.of q.wrt i j) := by
  obtain ⟨c, frame, a, hc, hframe, hdelivers, ha, rfl⟩ :=
    received_of_computeJacobian hT hgraph hcurrent h
  obtain ⟨sizes, hsizes, hget⟩ := hc.sizes
  have hkeys := ha.map_keys ▸ hdistinct
  refine ⟨sizes, hsizes, ?_, fun q hq => ?_⟩
  · rw [Table.keys, Table.entries_ofList hkeys, ← ha.map_keys]
  obtain ⟨r, hr⟩ := List.mem_iff_getElem?.1 hq
  obtain ⟨slot, hslot, hfilled⟩ := ha.slot r q hr
  obtain ⟨cols, hcols, hblock⟩ := hfilled.block
  rw [hpattern q hq] at hblock
  obtain ⟨m, hdense, hrows, hm, hcells⟩ := hblock
  refine ⟨slot.rows, cols, m, Request.rows_congr hget q ▸ hfilled.rows_eq,
    Request.cols_congr hget q ▸ hcols, ?_, hrows, hm, fun k l i j hk hl => ?_⟩
  · have hentry : ((q.of, q.wrt), Block.dense m) ∈ a.slots.map fun s => ((s.of, s.wrt), s.block) :=
      List.mem_map.2 ⟨slot, List.mem_of_getElem? hslot,
        by rw [hfilled.of_eq, hfilled.wrt_eq, hdense]⟩
    exact (Table.get?_ofList hkeys _).trans (Table.find_of_mem hkeys hentry)
  · have hk' : k < m.rows := hrows ▸ (List.getElem?_eq_some_iff.1 hk).1
    have hl' : l < m.cols := hm ▸ (List.getElem?_eq_some_iff.1 hl).1
    obtain ⟨v, hv⟩ := Option.isSome_iff_exists.1 ((m.isSome_get? k l).2 ⟨hk', hl'⟩)
    rw [hv]
    obtain ⟨u, d, active, hactive, hperturbed, hof, hquotient⟩ :=
      exists_quotient_of_cell hT hc hframe hdelivers hr (.inr (hpattern q hq)) hcols hk
        hl ((hcells k hk' l hl').symm.trans hv)
    have htracked := htracks sizes hsizes q hq cols (Request.cols_congr hget q ▸ hcols) j
      (List.mem_of_getElem? hl) d u active hactive hperturbed hof
    rw [slope_of_quotient htracked (hvalid q hq) hquotient]

end Scheme

end Sensitivity
