import Mathlib
import Sensitivity.Proofs.Approximation.Completing
import Sensitivity.Proofs.Model.Converging
import Sensitivity.Proofs.Model.Sampling

/-!
# Components that supply derivatives

A component that can be evaluated wherever it is asked to (`Component.Evaluates`) is a willing target
(`ModelComponent.willing_target`). If it is affine and stateless, it is an exact one that tracks its
variables (`ModelComponent.tracks_target`). So a scheme of valid requests for entire blocks computes
them, whatever the settings are, and they hold the slopes of the law
(`ModelComponent.exists_slopes_of_target`).
-/

namespace Sensitivity

variable {R M : Type}

namespace StateVector

/-- So many entries, each with an imaginary part if the vector is to have a shadow. -/
structure HasLength (v : StateVector R) (n : Nat) (complex : Bool) : Prop where
  size : v.size = n
  shadow : v.imag.map Array.size = if complex then some n else none

variable {v w : StateVector R} {n : Nat} {complex : Bool}

theorem HasLength.congr (h : v.HasLength n complex) (hsize : w.size = v.size)
    (himag : w.imag.map Array.size = v.imag.map Array.size) : w.HasLength n complex :=
  ⟨hsize.trans h.size, himag.trans h.shadow⟩

theorem HasLength.covers (h : v.HasLength n complex) {span : Span} (hspan : span.stop ≤ n) :
    v.Covers span := by
  refine ⟨h.size ▸ hspan, fun im him => ?_⟩
  have hshadow := h.shadow
  rw [him, Option.map_some] at hshadow
  split at hshadow
  · rw [Option.some.inj hshadow]
    exact hspan
  · cases hshadow

theorem HasLength.isComplex (h : v.HasLength n complex) : v.isComplex = complex := by
  rw [StateVector.isComplex, ← Option.isSome_map (f := Array.size), h.shadow]
  cases complex <;> rfl

/-- The lanes that are there have an entry for each entry. -/
theorem HasLength.size_lane (h : v.HasLength n complex) {mode : Mode}
    (hmode : mode = .complex → complex = true) : (v.lane mode).size = n := by
  cases mode with
  | real => exact h.size
  | complex =>
    have hshadow := h.shadow
    rw [hmode rfl, if_pos rfl] at hshadow
    obtain ⟨im, him, hsize⟩ := Option.map_eq_some_iff.1 hshadow
    rw [lane, him, Option.getD_some, hsize]

/-- Returning to a vector of some length. -/
theorem HasLength.restore [Scalar R] (hv : v.HasLength n complex) (hw : w.HasLength n complex) :
    (v.restore w).HasLength n complex := by
  have h : (v.restore w) = v :=
    restore_of_isComplex_eq (hw.isComplex.trans hv.isComplex.symm)
  rwa [h]

theorem hasLength_ofReal [Scalar R] (values : Array R) (complex : Bool) :
    (ofReal values complex).HasLength values.size complex := by
  refine ⟨rfl, ?_⟩
  cases complex with
  | true => simp [ofReal]
  | false => rfl

theorem length_readPart [Scalar R] {span : Span} (h : v.Covers span) (part : Part) :
    (v.readPart span part).length = span.size := by
  cases part with
  | real => exact h.size_readReal
  | imag =>
    simp only [readPart, readImag, Array.length_toList]
    cases him : v.imag with
    | none => exact Array.size_replicate
    | some im => exact Span.size_slice (h.2 im him)

/-- Entries that are there can be added to, imaginary parts where there is a shadow. -/
theorem exists_perturb [Scalar R] (h : v.HasLength n complex) (refusal : String) {i : Nat} (hi : i < n)
    {delta : Delta R} (hdelta : ∀ x, delta = .imag x → complex = true) :
    ∃ w, v.perturb refusal i delta = .ok w ∧ w.HasLength n complex := by
  cases delta with
  | real x =>
    refine ⟨_, (Outcome.ofOption_eq_ok _ _).2 (if_pos (h.size ▸ hi)), h.congr ?_ rfl⟩
    exact Array.size_modify
  | imag x =>
    have hcomplex := hdelta x rfl
    have hshadow := h.shadow
    rw [hcomplex, if_pos rfl] at hshadow
    obtain ⟨im, him, hsize⟩ := Option.map_eq_some_iff.1 hshadow
    refine ⟨{ v with imag := some (im.modify i (· + x)) }, ?_, h.congr rfl ?_⟩
    · rw [StateVector.perturb, if_pos (h.isComplex.trans hcomplex), addImag?, him, Option.bind_some,
        if_pos (hsize ▸ hi)]
      rfl
    · rw [him, Option.map_some, Option.map_some, Array.size_modify]

end StateVector

/-- A component that can be evaluated, in complex arithmetic if that is needed, on `n` inputs for `k`
outputs. -/
structure Component.Evaluates (c : Component R M) (n k : Nat) (complex : Prop) : Prop where
  real : ∀ x y μ, x.size = n → y.size = k → ∃ z ν, (c.computeReal x y).perform μ = (.ok z, ν)
  complex : complex → ∀ x y μ, x.size = n → y.size = k →
    ∃ z ν, (c.computeComplex x y).perform μ = (.ok z, ν)

theorem Component.Evaluates.exists_evaluate [Scalar R] {c : Component R M} {source target : Span}
    {needed : Prop} (hc : c.Evaluates source.size target.size needed) {inputs v : StateVector R}
    (hsource : inputs.Covers source) (htarget : v.Covers target) {complex : Bool}
    (hcomplex : complex = true → needed) (μ : M) :
    ∃ μ' v', (c.evaluate inputs source target complex).perform (μ, v) = (.ok (), μ', v') := by
  cases complex with
  | false =>
    obtain ⟨z, ν, hz⟩ := hc.real _ _ μ hsource.size_readReal htarget.size_readReal
    exact ⟨ν, _, evaluate_eq_ok.2 (.inl ⟨rfl, z, hz, rfl⟩)⟩
  | true =>
    obtain ⟨z, ν, hz⟩ := hc.complex (hcomplex rfl) _ _ μ hsource.size_readComplex
      htarget.size_readComplex
    exact ⟨ν, _, evaluate_eq_ok.2 (.inr ⟨rfl, z, hz, rfl⟩)⟩

namespace ModelComponent

/-- The number of entries of a variable of a component. -/
def extent (c : ModelComponent R M) (name : String) : Option Nat :=
  (c.layout.locate? name).map (·.2.size)

/-- Copies of the variables of a component, as long as it says, with shadows if complex evaluations
are to carry derivatives. -/
def Outfitted (c : ModelComponent R M) (complex : Bool) (s : ComponentScope R M) : Prop :=
  ∀ kind, (s.vector kind).HasLength (Flattening.spanOf c kind).size complex

/-- Variables stand within the span of their kind. -/
def Bounded (c : ModelComponent R M) : Prop :=
  ∀ name kind span, c.layout.locate? name = some (kind, span) →
    span.stop ≤ (Flattening.spanOf c kind).size

section Willing

variable [Scalar R] {c : ModelComponent R M} {complex : Bool} {s t : ComponentScope R M}

omit [Scalar R] in
theorem vector_of_eq (hinputs : t.inputs = s.inputs) (houtputs : t.outputs = s.outputs)
    (kind : VariableKind) : t.vector kind = s.vector kind := by
  cases kind with
  | input => exact hinputs
  | output => exact houtputs

omit [Scalar R] in
theorem Outfitted.congr (h : c.Outfitted complex s) (hinputs : t.inputs = s.inputs)
    (houtputs : t.outputs = s.outputs) : c.Outfitted complex t := by
  intro kind
  rw [vector_of_eq hinputs houtputs]
  exact h kind

omit [Scalar R] in
theorem Outfitted.setVector (h : c.Outfitted complex s) {kind : VariableKind} {v : StateVector R}
    (hv : v.HasLength (Flattening.spanOf c kind).size complex) :
    c.Outfitted complex (s.setVector kind v) := by
  intro kind'
  cases kind with
  | input =>
    cases kind' with
    | input => exact hv
    | output => exact h .output
  | output =>
    cases kind' with
    | input => exact h .input
    | output => exact hv

/-- The scope that a linearization starts with. -/
theorem outfitted_start (kept : ComponentState R M) {x y : Array R} (complex : Bool)
    (hx : x.size = c.inputs.size) (hy : y.size = c.outputs.size) :
    c.Outfitted complex (.start kept x y complex) := by
  intro kind
  cases kind with
  | input =>
    rw [show (Flattening.spanOf c .input).size = x.size from hx.symm]
    exact StateVector.hasLength_ofReal x complex
  | output =>
    rw [show (Flattening.spanOf c .output).size = y.size from hy.symm]
    exact StateVector.hasLength_ofReal y complex

omit [Scalar R] in
theorem exists_locate {name : String} {n : Nat} (h : c.extent name = some n) : ∃ kind span,
    c.layout.locate? name = some (kind, span) ∧ span.size = n ∧
      (c.locate name : Outcome (ApproximationError R) _) = .ok (kind, span) := by
  obtain ⟨⟨kind, span⟩, hfound, hsize⟩ := Option.map_eq_some_iff.1 h
  exact ⟨kind, span, hfound, hsize, (Outcome.expect_eq_ok _ _ _).2 hfound⟩

theorem Outfitted.yields_perturb (hs : c.Outfitted complex s) (hc : c.Bounded) {name : String} {n : Nat}
    (hname : c.extent name = some n) {i : Nat} (hi : i < n) {delta : Delta R}
    (hdelta : ∀ x, delta = .imag x → complex = true) :
    Action.Yields (fun _ t => c.Outfitted complex t) ((c.perturb name i delta).perform s) := by
  obtain ⟨kind, span, hlocated, rfl, hfound⟩ := exists_locate hname
  have hstop := hc name kind span hlocated
  obtain ⟨v, hv, hlength⟩ := StateVector.exists_perturb (hs kind) (shadowMissing c.path)
    (show span.start + i < _ from lt_of_lt_of_le (Nat.add_lt_add_left hi _) hstop) hdelta
  exact Action.yields_get_bind (Action.yields_ofOutcome_bind hfound
    (Action.yields_ofOutcome_bind hv ⟨(), _, rfl, hs.setVector hlength⟩))

theorem Outfitted.yields_evaluate (hs : c.Outfitted complex s)
    (hc : c.component.Evaluates c.inputs.size c.outputs.size (complex = true)) (mode : Mode) :
    Action.Yields (fun _ t => c.Outfitted complex t) ((c.evaluate mode).perform s) := by
  have hsource : s.inputs.Covers ⟨0, s.inputs.size⟩ :=
    (hs .input).covers ((Nat.zero_add _).trans_le (hs .input).size.le)
  have htarget : s.outputs.Covers ⟨0, s.outputs.size⟩ :=
    (hs .output).covers ((Nat.zero_add _).trans_le (hs .output).size.le)
  have hsize : c.component.Evaluates (⟨0, s.inputs.size⟩ : Span).size
      (⟨0, s.outputs.size⟩ : Span).size (complex = true) := by
    rw [show s.inputs.size = c.inputs.size from (hs .input).size,
      show s.outputs.size = c.outputs.size from (hs .output).size]
    exact hc
  have hcomplex (h : (decide (mode = .complex) && s.inputs.isComplex) = true) : complex = true :=
    (hs .input).isComplex.symm.trans (Bool.and_eq_true_iff.1 h).2
  obtain ⟨μ, v, hv⟩ := hsize.exists_evaluate hsource htarget hcomplex s.memory
  have hlengths := Component.lengths_evaluate c.component s.inputs s.outputs ⟨0, s.inputs.size⟩
    ⟨0, s.outputs.size⟩ (decide (mode = .complex) && s.inputs.isComplex) s.memory
  rw [hv] at hlengths
  refine ⟨(), { s with memory := μ, runs := s.runs + 1, outputs := v }, ?_, fun kind => ?_⟩
  · simp only [evaluate, Action.perform_of, hv]
    rfl
  · cases kind with
    | input => exact hs .input
    | output => exact (hs .output).congr hlengths.1 hlengths.2

/-- **A component that can be evaluated is a willing target.** -/
theorem willing_target (enclosed : Bool) (hbounded : c.Bounded)
    (hc : c.component.Evaluates c.inputs.size c.outputs.size (complex = true)) :
    (c.target enclosed).Willing (c.Outfitted complex) c.extent complex where
  size {s} _ {name n} hname := by
    obtain ⟨kind, span, -, rfl, hfound⟩ := exists_locate hname
    exact Except.bind_eq_ok.2 ⟨_, hfound, rfl⟩
  values {s} hs {name n} hname part := by
    obtain ⟨kind, span, hlocated, rfl, hfound⟩ := exists_locate hname
    exact ⟨_, Except.bind_eq_ok.2 ⟨_, hfound, rfl⟩,
      StateVector.length_readPart ((hs kind).covers (hbounded _ _ _ hlocated)) part⟩
  perturb {s} hs {name n} hname {i} hi h := hs.yields_perturb hbounded hname hi nofun
  perturbStep hcomplex {s} hs {name n} hname {i} hi h :=
    hs.yields_perturb hbounded hname hi fun _ _ => hcomplex
  evaluate {s} hs _ := hs.yields_evaluate hc .real
  evaluateStep _ {s} hs _ := hs.yields_evaluate hc .complex
  restore {s t} hs ht kind := by
    cases kind with
    | input => exact (hs .input).restore (ht .input)
    | output => exact (hs .output).restore (ht .output)
  enter {s} hs _ _ := hs.congr rfl rfl
  leave {s} hs := hs.congr rfl rfl
  capable {s} hs := (hs .input).isComplex

end Willing

variable [ExactScalar R] {c : ModelComponent R M} {law : AffineLaw R} {complex : Bool}
  {kept : ComponentState R M} {x y : Array R}

/-- The outputs of a component are what its law says of its inputs, if it follows the law. -/
def Follows (c : ModelComponent R M) (law : AffineLaw R) (x y : Array R) : Prop :=
  c.component.Obeys law → ∀ r < c.outputs.size, (y[r]?).getD 0 =
    law.offset r + ∑ j ∈ Finset.range c.inputs.size, law.slope r j * (x[j]?).getD 0

/-- The slope of an entry of a variable by an entry of another one, both by name. -/
def slopeOf (c : ModelComponent R M) (law : AffineLaw R) (of wrt : String) (i j : Nat) : R :=
  match c.layout.locate? of, c.layout.locate? wrt with
  | some (_, own), some (_, other) => law.slope (own.start + i) (other.start + j)
  | _, _ => 0

theorem entry_ofReal (a : Array R) (i : Nat) :
    (StateVector.ofReal a complex).entry .complex i = 0 := by
  cases complex with
  | false => rfl
  | true =>
    rw [StateVector.entry, StateVector.ofReal, if_pos rfl, StateVector.lane, Option.getD_some,
      Array.getElem?_replicate]
    split <;> rfl

variable (hx : x.size = c.inputs.size) (hy : y.size = c.outputs.size) (hlaw : c.Follows law x y)

include hx hy hlaw

/-- The copies that a linearization starts with are what the law says, in both lanes. -/
theorem poised_start {mode : Mode} (hmode : mode = .complex → complex = true) :
    c.Poised law mode (.start kept x y complex) where
  size kind := (outfitted_start kept complex hx hy kind).size
  lane kind := (outfitted_start kept complex hx hy kind).size_lane hmode
  computed hobeys r hr := by
    cases mode with
    | real => exact hlaw hobeys r hr
    | complex =>
      simp only [ComponentScope.start, entry_ofReal, mul_zero, Finset.sum_const_zero, add_zero]
      rfl

/-- **An affine component tracks its variables.** -/
theorem tracks_target (hc : c.Affine law) (hcomplex : complex = true → c.component.complexSafe = true)
    (hbounded : c.Bounded) {of wrt : String} {own other : Span}
    (hof : c.layout.locate? of = some (.output, own))
    (hwrt : c.layout.locate? wrt = some (.input, other)) (enclosed : Bool) (active : ActiveSet)
    (j : Nat) : (c.target enclosed).Tracks (.start kept x y complex) active of wrt j
      fun i => law.slope (own.start + i) (other.start + j) where
  real f hf δ vs hvs i v hv := by
    have hpoised : c.Poised law .real (.start kept x y complex) := poised_start hx hy hlaw nofun
    have hresponse := getElem?_response hc hpoised nofun hof (hbounded _ _ _ hof) hwrt hvs i
    have hread : f = (StateVector.ofReal y complex).readPart own .real := by
      obtain ⟨found, hfound, hf⟩ := Except.bind_eq_ok.1 hf
      rw [locate, Outcome.expect_eq_ok, hof] at hfound
      cases hfound
      exact (Except.ok.inj hf).symm
    have hentry : ((StateVector.ofReal y complex).readPart own Mode.real.part)[i]? = _ :=
      StateVector.getElem?_readPart ((hbounded _ _ _ hof).trans_eq (hpoised.lane .output).symm) i
    rw [hread] at hv
    rw [Mode.part, hv] at hentry
    split at hentry
    · rename_i hi
      rw [hresponse, if_pos hi, Option.some.inj hentry]
      rfl
    · cases hentry
  imag hcapable owner step h vs hvs i v hv := by
    have htrue : complex = true := by
      rw [← (StateVector.hasLength_ofReal x complex).isComplex]
      exact hcapable
    have hstart : c.Poised law .complex (.start kept x y complex) :=
      poised_start hx hy hlaw fun _ => htrue
    -- announcing a step moves nothing
    have hentered : c.Poised law .complex
        ((c.target enclosed).enter owner step (.start kept x y complex)) :=
      ⟨⟨fun kind => (vector_of_eq rfl rfl kind).symm ▸ hstart.size kind,
        fun kind => (vector_of_eq rfl rfl kind).symm ▸ hstart.lane kind⟩, hstart.computed⟩
    have hresponse := getElem?_response hc hentered (fun _ => ⟨hcapable, hcomplex htrue⟩) hof
      (hbounded _ _ _ hof) hwrt hvs i
    rw [hv] at hresponse
    split at hresponse
    · rw [Option.some.inj hresponse]
      exact (congrArg (· + _) (entry_ofReal y _)).trans (zero_add _)
    · cases hresponse

/-- **Approximated blocks hold the slopes of a component**, whatever the method, the step and the
form. -/
theorem exists_slopes_of_target (hc : c.Affine law)
    (hcomplex : complex = true → c.component.complexSafe = true) (hbounded : c.Bounded)
    (hevaluates : c.component.Evaluates c.inputs.size c.outputs.size (complex = true))
    (enclosed : Bool) {a : Scheme R} (hcurrent : a.Current (c.target enclosed))
    (hdistinct : (a.requests.map fun q => (q.of, q.wrt)).Nodup)
    (hentire : ∀ q ∈ a.requests, q.Entire)
    (hplaced : ∀ q ∈ a.requests, ∃ own other, c.layout.locate? q.of = some (.output, own) ∧
      c.layout.locate? q.wrt = some (.input, other)) (d : Diagnostics) :
    ∃ j w, (Scheme.computeJacobian (c.target enclosed)).perform ⟨a, d, .start kept x y complex⟩ =
        (.ok j, w) ∧ j.keys = a.requests.map (fun q => (q.of, q.wrt)) ∧
      ∀ q ∈ a.requests, ∀ own other, c.layout.locate? q.of = some (.output, own) →
        c.layout.locate? q.wrt = some (.input, other) →
          ∃ m, j.get? (q.of, q.wrt) = some (.dense m) ∧ law.Fills own other m := by
  have hexact := c.target_exact enclosed hc.stateless
  have hgrantable : a.Grantable c.extent := fun q hq => by
    obtain ⟨own, other, hof, hwrt⟩ := hplaced q hq
    exact (hentire q hq).apt (n := own.size) (k := other.size) (by rw [extent, hof]; rfl)
      (by rw [extent, hwrt]; rfl)
  obtain ⟨j, w, hw⟩ := Scheme.Grantable.exists_computeJacobian
    (w := ⟨a, d, .start kept x y complex⟩) (willing_target enclosed hbounded hevaluates) hgrantable
    (outfitted_start kept complex hx hy) hexact (Target.charted_of_none (fun _ => rfl) _) hcurrent
  have hslope {q : Request R} {own other : Span} (hof : c.layout.locate? q.of = some (.output, own))
      (hwrt : c.layout.locate? q.wrt = some (.input, other)) (i j : Nat) :
      c.slopeOf law q.of q.wrt i j = law.slope (own.start + i) (other.start + j) := by
    rw [slopeOf, hof, hwrt]
  obtain ⟨sizes, hsizes, hkeys, hblocks⟩ := Scheme.slopes_of_computeJacobian hexact (fun _ => rfl)
    hcurrent hdistinct (fun q hq => (hentire q hq).pattern) (fun q hq => (hentire q hq).valid)
    (c.slopeOf law) (fun _ _ q hq _ _ j _ _ _ active _ _ _ => by
      obtain ⟨own, other, hof, hwrt⟩ := hplaced q hq
      rw [funext (hslope hof hwrt · j)]
      exact tracks_target hx hy hlaw hc hcomplex hbounded hof hwrt enclosed active j) hw
  refine ⟨j, w, hw, hkeys, fun q hq own other hof hwrt => ?_⟩
  obtain ⟨rows, cols, m, hrows, hcols, hget, hm, hm', hentries⟩ := hblocks q hq
  have hsize {name : String} {kind : VariableKind} {span : Span}
      (hname : c.layout.locate? name = some (kind, span)) (hmem : name ∈ a.variableNames) :
      sizes.get? name = some span.size := by
    obtain ⟨n, hn, hsize⟩ := Scheme.get?_of_mem_variableNames hsizes hmem
    obtain ⟨found, hfound, hsize⟩ := Except.bind_eq_ok.1 hsize
    rw [locate, Outcome.expect_eq_ok, hname] at hfound
    cases hfound
    rw [hn, ← Except.ok.inj hsize]
  obtain ⟨hmem, hmem'⟩ := Scheme.mem_variableNames hq
  obtain rfl := Except.ok.inj (hrows.symm.trans ((hentire q hq).rows_eq (hsize hof hmem)))
  obtain rfl := Except.ok.inj (hcols.symm.trans ((hentire q hq).cols_eq (hsize hwrt hmem')))
  rw [List.length_range] at hm hm'
  refine ⟨m, hget, hm, hm', fun i hi j hj => ?_⟩
  rw [← hslope hof hwrt]
  exact hentries i j i j (by rw [List.getElem?_range hi]) (by rw [List.getElem?_range hj])

end ModelComponent

end Sensitivity
