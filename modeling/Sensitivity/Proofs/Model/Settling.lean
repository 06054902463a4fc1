import Mathlib
import Sensitivity.Proofs.Model.History
import Sensitivity.Proofs.Model.Perturbing
import Sensitivity.Proofs.Model.Repeating

/-!
# States between operations

Between operations the vectors of a model have no imaginary parts (`Model.Resting`): assignments and
real runs bring none, and derivatives return to the vectors that they found
(`Model.resting_of_reaches`). After a run of an affine model its connected inputs hold what they
read, and its outputs are what their laws say (`Model.Balanced`).
-/

namespace Sensitivity

/-- A constant array with entries replaced by the same stays as it is. -/
theorem Span.overwrite_replicate {α : Type} (s : Span) (n : Nat) {z : α} {values : Array α}
    (h : ∀ x ∈ values, x = z) :
    s.overwrite (Array.replicate n z) values = Array.replicate n z := by
  refine Array.ext_getElem? fun i => ?_
  by_cases hi : s.contains i = true
  · have hold : values.getD (i - s.start) z = z := by
      unfold Array.getD
      split
      · exact h _ (Array.getElem_mem _)
      · rfl
    rw [getElem?_overwrite_of_contains hi, Array.getElem?_replicate]
    split
    · rw [Option.map_some, hold]
    · rfl
  · rw [getElem?_overwrite_of_not_contains _ _ _ _ (by simpa using hi)]

section Rest

variable {R M : Type} [Scalar R]

namespace StateVector

/-- A vector without imaginary parts, with or without a shadow. -/
def AtRest (v : StateVector R) (complex : Bool) : Prop :=
  v.imag = if complex then some (Array.replicate v.size 0) else none

variable {v w : StateVector R} {complex : Bool}

theorem atRest_ofReal (values : Array R) (complex : Bool) : (ofReal values complex).AtRest complex :=
  rfl

theorem AtRest.writeReal (h : v.AtRest complex) (s : Span) (values : Array R) :
    (v.writeReal s values).AtRest complex := by
  rw [AtRest, size, StateVector.writeReal, Span.size_overwrite]
  exact h

theorem AtRest.storeReal (h : v.AtRest complex) (s : Span) (values : Array R) :
    (v.storeReal s values).AtRest complex := by
  have hw := h.writeReal s values
  unfold AtRest at hw ⊢
  rw [StateVector.storeReal, writeImag]
  dsimp only
  rw [hw]
  split
  · rw [Option.map_some, Span.overwrite_replicate _ _ fun x hx => ?_]
    · rfl
    · obtain ⟨_, -, rfl⟩ := Array.mem_map.1 hx
      rfl
  · rfl

theorem AtRest.copy (hv : v.AtRest complex) (hw : w.AtRest complex) (target source : Span) :
    (v.copy target w source).AtRest complex := by
  unfold AtRest at hv hw ⊢
  rw [size_copy, StateVector.copy, hv, hw]
  cases complex
  · rfl
  · refine congrArg some (Span.overwrite_replicate _ _ fun x hx => ?_)
    rw [Span.slice, Array.extract_replicate] at hx
    exact (Array.mem_replicate.1 hx).2

end StateVector

namespace Model

variable (m : Model R M)

/-- The vectors of a state are as long as the model says, and have no imaginary parts. -/
structure Resting (s : ModelState R M) : Prop where
  fits : m.Fits s
  rest : ∀ kind, (s.vector kind).AtRest m.complex

variable {m} {s t : ModelState R M}

theorem Resting.congr (h : m.Resting s) (hinputs : t.inputs = s.inputs)
    (houtputs : t.outputs = s.outputs) : m.Resting t := by
  have hvector (kind : VariableKind) : t.vector kind = s.vector kind := by
    cases kind
    · exact hinputs
    · exact houtputs
  exact ⟨fun kind => hvector kind ▸ h.fits kind, fun kind => hvector kind ▸ h.rest kind⟩

theorem Resting.setVector (h : m.Resting s) (kind : VariableKind) {v : StateVector R}
    (hsize : v.size = m.lengthOf kind) (hv : v.AtRest m.complex) :
    m.Resting (s.setVector kind v) := by
  constructor <;> intro k <;> rw [vector_setVector] <;> split
  · rename_i hk
    rw [hk, hsize]
  · exact h.fits k
  · exact hv
  · exact h.rest k

/-- A resting state is one to follow in both lanes. -/
theorem Resting.sized (h : m.Resting s) {mode : Mode} (hmode : mode = .complex → m.complex = true) :
    m.Sized mode s where
  fits := h.fits
  lane kind := by
    cases mode with
    | real => exact h.fits kind
    | complex =>
      rw [StateVector.lane, h.rest kind, hmode rfl, if_pos rfl, Option.getD_some,
        Array.size_replicate]
      exact h.fits kind

theorem Resting.entry (h : m.Resting s) (kind : VariableKind) (i : Nat) :
    (s.vector kind).entry .complex i = 0 := by
  rw [StateVector.entry, StateVector.lane, h.rest kind]
  split
  · rw [Option.getD_some, Array.getElem?_replicate]
    split <;> rfl
  · rfl

theorem Resting.pull (h : m.Resting s) (scope : Span) (c : ModelComponent R M) :
    m.Resting (m.pull scope c s) :=
  of_pull (fun _ _ hs => hs.setVector .input ((StateVector.size_copy _ _ _ _).trans (hs.fits .input))
    ((hs.rest .input).copy (hs.rest .output) _ _)) scope c h

/-- Running a component in real arithmetic brings no imaginary parts. -/
theorem resting_compute (k : Nat) : (m.compute k .real).Preserves m.Resting := by
  refine Action.preserves_bind (Action.preserves_ofOutcome _) fun c => ?_
  refine Action.preserves_bind (Action.preserves_read _) fun kept => ?_
  intro s hs _
  have hreal : m.isComplexIn .real = false := rfl
  simp only [Action.perform_of, Component.evaluate, hreal, Bool.false_eq_true, if_false]
  rcases (c.component.computeReal (s.inputs.readReal c.inputs)
    (s.outputs.readReal c.outputs)).perform kept.memory with ⟨e | y, memory⟩
  · exact hs.congr rfl rfl
  · have hsize : (s.outputs.storeReal c.outputs y).size = m.lengthOf .output :=
      (Span.size_overwrite _ _ _).trans (hs.fits .output)
    exact (hs.setVector .output hsize ((hs.rest .output).storeReal _ _)).congr rfl rfl

theorem resting_setValue (name : String) (values : List R) :
    (m.setValue name values).Preserves m.Resting :=
  (m.sustains_setValue_of_write (Q := fun _ => True) (fun kind _ _ hs => hs.setVector kind
    ((Span.size_overwrite _ _ _).trans (hs.fits kind)) ((hs.rest kind).writeReal _ _))
    name values).preserves

/-- A model at the start is at rest. -/
theorem resting_start {g : Group R M} {settings : SetupSettings} (h : ofGroup g settings = .ok m)
    (hvalued : ∀ c ∈ g.members.components, ∀ d, c.declarations = .ok d → d.Valued)
    (hs : m.start = .ok s) : m.Resting s := by
  refine ⟨fits_start h hvalued hs, fun kind => ?_⟩
  unfold start at hs
  obtain ⟨schemes, -, hs⟩ := Except.bind_eq_ok.1 hs
  cases hs
  cases kind <;> exact StateVector.atRest_ofReal _ _

variable [DirectSolver R]

/-- **No operation brings imaginary parts**, in a model that solves nothing by iteration. -/
theorem resting_operation (honce : ∀ x ∈ m.groups, x.1.solver = .runOnce) (op : Operation R) :
    (op.work m).Preserves m.Resting := by
  refine op.preserves_of_point (fun hs hpoint => hs.congr (congrArg Prod.fst hpoint)
    (congrArg (fun p => p.2.1) hpoint)) resting_setValue ?_
  refine preserves_runSchedule (fun c s hs => hs.pull _ c) resting_compute fun x hx => honce x ?_
  simpa [Schedule.groups, groups] using hx

theorem resting_of_reaches (honce : ∀ x ∈ m.groups, x.1.solver = .runOnce)
    {ops : List (Operation R)} (h : m.Reaches s ops t) (hs : m.Resting s) : m.Resting t :=
  h.preserves (resting_operation honce) hs

end Model

end Rest

variable {R M : Type} [ExactScalar R]

namespace Model

/-- A state in which, in one lane, connected inputs hold what they read, and outputs are what their
laws say. -/
structure Balanced (m : Model R M) (laws : Nat → AffineLaw R) (mode : Mode) (s : ModelState R M) :
    Prop where
  connected : ∀ p q, m.wire p = some q → s.inputs.entry mode p = s.outputs.entry mode q
  computed : ∀ (k : Nat) c, m.components[k]? = some c → c.component.Obeys (laws k) →
    ∀ r, c.outputs.contains r = true → s.outputs.entry mode r =
      (laws k).offsetIn mode (r - c.outputs.start) +
        ∑ p ∈ Finset.range m.inputLength, (m.flow laws).slope r p * s.inputs.entry mode p

open Classical in
/-- What outputs are without their inputs: those that are not computed are what they are. -/
noncomputable def groundOf (m : Model R M) (laws : Nat → AffineLaw R) (s : ModelState R M)
    (r : Nat) : R :=
  match (m.ownerOf? .output r).bind fun k => m.components[k]?.map fun c => (k, c) with
  | some (k, c) =>
    if c.component.Obeys (laws k) then (laws k).offset (r - c.outputs.start)
    else s.outputs.entry .real r
  | none => s.outputs.entry .real r

/-- The point that a run from a state comes to, as an excursion that moves nothing. -/
noncomputable def settling (m : Model R M) (laws : Nat → AffineLaw R) (s : ModelState R M) :
    Excursion R :=
  let outputs := (m.flow laws).tangent (s.inputs.entry .real) (m.groundOf laws s)
  { scope := ⟨0, m.components.length⟩
    mode := .real
    active := .all
    inputs := (m.flow laws).feed (s.inputs.entry .real) outputs
    outputs := outputs
    inputMove := fun _ => 0
    outputMove := fun _ => 0
    Matters := fun _ => True }

variable {m : Model R M} {laws : Nat → AffineLaw R} {s t : ModelState R M} {k : Nat}
  {c : ModelComponent R M}

theorem Laid.groundOf_eq (hm : m.Laid) (hc : m.components[k]? = some c) {r : Nat}
    (hr : c.outputs.contains r = true) : (c.component.Obeys (laws k) →
        m.groundOf laws s r = (laws k).offset (r - c.outputs.start)) ∧
      (¬ c.component.Obeys (laws k) → m.groundOf laws s r = s.outputs.entry .real r) := by
  have howner := (hm.owner_output_iff hc).2 hr
  constructor <;> intro h <;> simp only [groundOf, howner, Option.bind_some, hc, Option.map_some, h,
    if_true, if_false]

/-- Without imaginary parts there is nothing to balance among them. -/
theorem Resting.balanced (h : m.Resting s) : m.Balanced laws .complex s where
  connected p q _ := (h.entry .input p).trans (h.entry .output q).symm
  computed k c _ _ r _ := by
    have hinput (p : Nat) : s.inputs.entry .complex p = 0 := h.entry .input p
    have houtput : s.outputs.entry .complex r = 0 := h.entry .output r
    simp only [AffineLaw.offsetIn, hinput, houtput, mul_zero, Finset.sum_const_zero, add_zero]

/-- All components are in the scope of the whole model. -/
theorem Laid.flowIn_all (hm : m.Laid) (laws : Nat → AffineLaw R) :
    m.flowIn laws ⟨0, m.components.length⟩ = m.flow laws := by
  have hwire : (fun p => (m.wire p).filter (m.inScope ⟨0, m.components.length⟩)) = m.wire := by
    funext p
    cases hp : m.wire p with
    | none => rfl
    | some q =>
      obtain ⟨-, source, -, v, -, -, -, -, hv, hkind, hq, -⟩ := hm.of_wire hp
      obtain ⟨c, hc, -⟩ := hm.owned source v hv
      have howner := hm.ownerOf?_eq hv hq
      rw [hkind] at howner
      rw [Option.filter_some, inScope, howner, Option.any_some, if_pos]
      rw [Span.contains_iff]
      have := (List.getElem?_eq_some_iff.1 hc).1
      exact ⟨Nat.zero_le _, by simpa [Span.stop] using this⟩
  rw [flowIn, Flow.within]
  exact congrArg (fun wire => { m.flow laws with wire := wire }) hwire

/-- What does not move has no tangents. -/
theorem Affine.tangent_zero (hm : m.Affine laws) (scope : Span) (r : Nat) :
    (m.flowIn laws scope).tangent (fun _ => 0) (fun _ => 0) r = 0 := by
  by_contra h
  exact Flow.of_tangent_ne_zero (hm.ordered.within _) (A := fun _ => False) (B := fun _ => False)
    (fun _ h => h rfl) (fun _ h => h rfl) (fun _ _ _ h => h) (fun _ _ _ h => h) h

theorem settling_sound (hm : m.Affine laws) (s : ModelState R M) :
    (m.settling laws s).Sound m laws where
  connected p q hwire := by
    rw [settling, hm.laid.flowIn_all] at hwire
    simp only [settling, Flow.feed, hwire]
  computed k c hc _ hobeys r hr := by
    simp only [settling]
    rw [Flow.tangent_eq hm.ordered, (hm.laid.groundOf_eq hc hr).1 hobeys]
    rfl
  closed _ _ _ _ _ _ := trivial
  kept _ _ _ _ _ _ := rfl
  passed _ _ _ _ _ h := by cases h
  capable h := by cases h

/-- **A run of an affine model settles it.** -/
theorem Affine.balanced_of_run [DirectSolver R] (hm : m.Affine laws) {members : Members R M}
    (hfollows : Schedule.Follows m.components "" members m.schedule 0 m.components.length)
    (honce : ∀ x ∈ m.groups, x.1.solver = .runOnce) (hs : m.Resting s)
    (h : m.run.perform s = (.ok (), t)) : m.Balanced laws .real t := by
  have he := settling_sound hm s
  have hlaid := hm.laid
  have hflow := hlaid.flowIn_all laws
  have hzero (r : Nat) : (m.settling laws s).tangent m laws r = 0 := hm.tangent_zero _ r
  have hstart : m.Underway laws (m.settling laws s) 0 s := by
    refine ⟨hs.sized fun h => (nomatch h), fun p hp => ?_, fun _ _ _ _ _ h => absurd h (Nat.not_lt_zero _),
      fun r k _ hk _ hwaits => ?_, fun _ _ _ _ _ _ _ h => absurd h (Nat.not_lt_zero _)⟩
    · rw [settling, hflow] at hp
      simp only [settling, Flow.feed, hp, add_zero]
    · obtain hpassive | ⟨c, hc, hobeys⟩ := hwaits
      · cases hpassive
      have hr := (hlaid.owner_output_iff hc).1 hk
      simp only [settling, add_zero]
      rw [Flow.tangent_eq hm.ordered, (hlaid.groundOf_eq hc hr).2 hobeys]
      obtain ⟨-, hslope⟩ | hobeys' := (hm.component k c hc).lawful
      · rw [Finset.sum_eq_zero fun p _ => ?_, add_zero]
        rw [hlaid.slope_flow hc hr, hslope, ite_self, zero_mul]
      · exact absurd hobeys' hobeys
  have hend : m.Underway laws (m.settling laws s) m.components.length t := by
    refine hstart.of_runSchedule hm he hfollows (fun x hx => honce x ?_) (Nat.le_refl _)
      (by simp [settling, Span.stop]) ?_
    · exact List.mem_cons_of_mem _ hx
    · unfold run solveGroup at h
      rw [runSchedule_group (honce (m.root, m.schedule) List.mem_cons_self)] at h
      obtain ⟨_, u, hu, hdone⟩ := Action.bind_eq_ok.1 h
      cases hdone
      exact hu
  have houtput {q j : Nat} (hq : m.ownerOf? .output q = some j) :
      t.outputs.entry .real q = (m.settling laws s).outputs q := by
    obtain ⟨c, hc, -⟩ := hlaid.exists_component hq
    have h := hend.output q j trivial hq (Nat.zero_le _) (List.getElem?_eq_some_iff.1 hc).1
    rwa [hzero, add_zero] at h
  have hinput {p k : Nat} (hp : m.ownerOf? .input p = some k) :
      t.inputs.entry .real p = (m.settling laws s).inputs p := by
    obtain ⟨c, hc, -⟩ := hlaid.exists_component hp
    cases hwire : m.wire p with
    | none =>
      have h := hend.free p (by rw [settling, hflow]; exact hwire)
      rwa [settling, add_zero] at h
    | some q =>
      have h := hend.read p q k (by rw [settling, hflow]; exact hwire) trivial hp (Nat.zero_le _)
        (List.getElem?_eq_some_iff.1 hc).1 rfl
      rwa [hzero, add_zero] at h
  constructor
  · intro p q hwire
    obtain ⟨k, j, hp, hq⟩ := hlaid.exists_owners_of_wire hwire
    rw [hinput hp, houtput hq]
    exact he.connected p q (by rw [settling, hflow]; exact hwire)
  · intro k c hc hobeys r hr
    have hk : (m.settling laws s).scope.contains k = true := by
      rw [Span.contains_iff]
      have := (List.getElem?_eq_some_iff.1 hc).1
      exact ⟨Nat.zero_le _, by simpa [settling, Span.stop] using this⟩
    rw [houtput ((hlaid.owner_output_iff hc).2 hr), he.computed k c hc hk hobeys r hr]
    refine congrArg (_ + ·) (Finset.sum_congr rfl fun p _ => ?_)
    by_cases hslope : (m.flow laws).slope r p = 0
    · rw [hslope, zero_mul, zero_mul]
    · obtain ⟨k', c', hc', -, hp, -⟩ := hlaid.of_slope_flow_ne_zero hslope
      rw [hinput ((hlaid.owner_input_iff hc').2 hp)]

end Model

end Sensitivity
