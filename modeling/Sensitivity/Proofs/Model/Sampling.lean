import Mathlib
import Sensitivity.Proofs.Approximation.Slopes
import Sensitivity.Proofs.Model.Affine

/-!
# Derivatives of single components

On copies of its variables, where its outputs are what its law says, an affine component responds to
a perturbation of an input by the slope times what was added (`ModelComponent.getElem?_response`).
-/

namespace Sensitivity

variable {R M : Type} [ExactScalar R]

namespace ModelComponent

/-- Copies of the variables of a component, as long as it says. -/
structure Copied (c : ModelComponent R M) (mode : Mode) (s : ComponentScope R M) : Prop where
  size : ∀ kind, (s.vector kind).size = (Flattening.spanOf c kind).size
  lane : ∀ kind, ((s.vector kind).lane mode).size = (Flattening.spanOf c kind).size

/-- Copies whose outputs are what the law of the component says. -/
structure Poised (c : ModelComponent R M) (law : AffineLaw R) (mode : Mode)
    (s : ComponentScope R M) : Prop extends c.Copied mode s where
  computed : c.component.Obeys law → ∀ r < c.outputs.size, s.outputs.entry mode r =
    law.offsetIn mode r +
      ∑ j ∈ Finset.range c.inputs.size, law.slope r j * s.inputs.entry mode j

variable {c : ModelComponent R M} {law : AffineLaw R} {mode : Mode} {s s' : ComponentScope R M}
  {of wrt : String} {own other : Span} {j : Nat} {δ : R} {enclosed : Bool} {active : ActiveSet}

/-- **Running a component on copies** takes its outputs to what its law says of its inputs, or leaves
all of them as they are. -/
theorem entry_of_evaluate (law : AffineLaw R) (hs : c.Copied mode s)
    (hmode : mode = .complex → s.inputs.isComplex = true ∧ c.component.complexSafe = true)
    (h : (c.evaluate mode).perform s = (.ok (), s')) :
    c.Copied mode s' ∧
      (c.component.Idle → ∀ r, s'.outputs.entry mode r = s.outputs.entry mode r) ∧
      (c.component.Obeys law → ∀ r < c.outputs.size, s'.outputs.entry mode r =
        law.offsetIn mode r +
          ∑ j ∈ Finset.range c.inputs.size, law.slope r j * s.inputs.entry mode j) := by
  have hcomplex : (decide (mode = .complex) && s.inputs.isComplex) = decide (mode = .complex) := by
    cases mode with
    | real => rfl
    | complex => simp [(hmode rfl).1]
  rw [evaluate, Action.perform_of] at h
  dsimp only at h
  rw [hcomplex] at h
  rcases heval : (c.component.evaluate s.inputs ⟨0, s.inputs.size⟩ ⟨0, s.outputs.size⟩
    (decide (mode = .complex))).perform (s.memory, s.outputs) with ⟨o, memory, outputs⟩
  rw [heval] at h
  obtain ⟨ho, rfl⟩ := Prod.mk.inj h
  rw [Outcome.mapError_eq_ok] at ho
  dsimp only at ho
  subst ho
  have hinputs : s.inputs.size = c.inputs.size := hs.size .input
  have houtputs : s.outputs.size = c.outputs.size := hs.size .output
  have hsource := Mode.forall_carried
    (P := fun lane => (⟨0, s.inputs.size⟩ : Span).stop ≤ (s.inputs.lane lane).size)
    (Nat.zero_add _).le ((Nat.zero_add _).trans (hinputs.trans (hs.lane .input).symm)).le
  have htarget := Mode.forall_carried
    (P := fun lane => (⟨0, s.outputs.size⟩ : Span).stop ≤ (s.outputs.lane lane).size)
    (Nat.zero_add _).le ((Nat.zero_add _).trans (houtputs.trans (hs.lane .output).symm)).le
  obtain ⟨hsize, z, hlane, hidle, hobeys⟩ :=
    Component.lane_of_evaluate law hsource htarget heval decide_eq_true
  refine ⟨⟨fun kind => ?_, fun kind => ?_⟩, fun hholds r => ?_, fun hlaw r hr => ?_⟩
  · cases kind with
    | input => exact hs.size .input
    | output => exact hsize.trans (hs.size .output)
  · cases kind with
    | input => exact hs.lane .input
    | output => exact (congrArg Array.size hlane).trans ((Span.size_overwrite _ _ _).trans
        (hs.lane .output))
  · rw [StateVector.entry, hlane, hidle hholds, Span.overwrite_slice]
    rfl
  · obtain ⟨hz, hentries⟩ := hobeys hlaw (fun hmode' => (hmode hmode').2) fun hreal hcomplex => by
      cases hreal.symm.trans (of_decide_eq_true hcomplex)
    have hr' : r < s.outputs.size := houtputs ▸ hr
    rw [StateVector.entry, hlane, Span.getD_overwrite (htarget mode decide_eq_true) hz,
      if_pos (Span.contains_iff.2 ⟨Nat.zero_le _, by rwa [Span.stop, Nat.zero_add]⟩),
      show r - (⟨0, s.outputs.size⟩ : Span).start = r from Nat.sub_zero r, hentries r hr']
    simp only [hinputs, Nat.zero_add]

/-- **Adding to an entry of an input** changes nothing else. -/
theorem entry_of_perturb (hs : c.Copied mode s)
    (hwrt : c.layout.locate? wrt = some (.input, other))
    (h : (c.perturb wrt j (mode.delta δ)).perform s = (.ok (), s')) :
    c.Copied mode s' ∧ s'.outputs = s.outputs ∧ s'.inputs.isComplex = s.inputs.isComplex ∧
      other.start + j < c.inputs.size ∧
      ∀ p, s'.inputs.entry mode p = s.inputs.entry mode p + if p = other.start + j then δ else 0 := by
  unfold perturb at h
  rw [Action.perform_get_bind, Action.ofOutcome_bind_eq_ok] at h
  obtain ⟨found, hfound, h⟩ := h
  rw [locate, Outcome.expect_eq_ok, hwrt] at hfound
  cases hfound
  obtain ⟨x, hx, h⟩ := Action.ofOutcome_bind_eq_ok.1 h
  cases h
  obtain ⟨hsize, hlt, hlane⟩ := StateVector.lane_of_perturb mode hx
  refine ⟨⟨fun kind => ?_, fun kind => ?_⟩, rfl, StateVector.isComplex_perturb hx,
    hlt.trans_eq (hs.lane .input), StateVector.entry_of_perturb hx⟩
  · cases kind with
    | input => exact hsize.trans (hs.size .input)
    | output => exact hs.size .output
  · cases kind with
    | input => exact (congrArg Array.size hlane).trans (Array.size_modify.trans (hs.lane .input))
    | output => exact hs.lane .output

/-- **The response of a component** to a perturbation is the slope times what was added. -/
theorem getElem?_response (hc : c.Affine law) (hs : c.Poised law mode s)
    (hmode : mode = .complex → s.inputs.isComplex = true ∧ c.component.complexSafe = true)
    (hof : c.layout.locate? of = some (.output, own)) (hown : own.stop ≤ c.outputs.size)
    (hwrt : c.layout.locate? wrt = some (.input, other)) {vs : List R}
    (h : ((c.target enclosed).focus active).response [⟨wrt, j, mode.delta δ⟩] mode of mode.part s =
      .ok vs) (i : Nat) : vs[i]? = if i < own.size then
        some (s.outputs.entry mode (own.start + i) +
          δ * law.slope (own.start + i) (other.start + j)) else none := by
  unfold Target.response at h
  obtain ⟨_, hshift, hvalues⟩ := Except.bind_eq_ok.1 h
  obtain ⟨_, s₁, hmove, hrun⟩ := Action.bind_eq_ok.1 (Action.perform_eq_ok hshift)
  obtain ⟨_, s₂, hperturb, hdone⟩ := Action.bind_eq_ok.1 hmove
  cases hdone
  obtain ⟨hcopied, houtputs, hcomplex, hlt, hentry⟩ := entry_of_perturb hs.toCopied hwrt hperturb
  obtain ⟨hdone, hidle, hobeys⟩ := entry_of_evaluate law hcopied
    (fun h => ⟨hcomplex.trans (hmode h).1, (hmode h).2⟩) hrun
  have hread (t : ComponentScope R M) (ht : c.Copied mode t)
      (hvalues : (c.target enclosed).values t of mode.part = .ok vs) :
      vs[i]? = if i < own.size then some (t.outputs.entry mode (own.start + i)) else none := by
    obtain ⟨found, hfound, hvalues⟩ := Except.bind_eq_ok.1 hvalues
    rw [locate, Outcome.expect_eq_ok, hof] at hfound
    cases hfound
    cases hvalues
    exact StateVector.getElem?_readPart (hown.trans_eq (ht.lane .output).symm) i
  rw [hread _ hdone hvalues]
  split
  swap
  · rfl
  rename_i hi
  have hrow : own.start + i < c.outputs.size := lt_of_lt_of_le (Nat.add_lt_add_left hi _) hown
  refine congrArg some ?_
  rcases hc.lawful with ⟨hholds, hflat⟩ | hlaw
  · rw [hidle hholds, houtputs, hflat, mul_zero, add_zero]
  · rw [hobeys hlaw _ hrow, hs.computed hlaw _ hrow, add_assoc]
    refine congrArg (_ + ·) ?_
    simp only [hentry, mul_add, Finset.sum_add_distrib, mul_ite, mul_zero]
    rw [Finset.sum_ite_eq', if_pos (Finset.mem_range.2 hlt), mul_comm δ]

end ModelComponent

end Sensitivity
