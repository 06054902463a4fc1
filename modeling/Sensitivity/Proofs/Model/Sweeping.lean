import Mathlib
import Sensitivity.Proofs.Model.Forwarding
import Sensitivity.Proofs.Model.Tabulating

/-!
# Running affine components once

When some affine components pull their inputs and then run, one after another, all of them read the
outputs from before (`Model.Swept`): each of their inputs holds what it reads, or what it held, and
each of their outputs is what its law says of the inputs, or what it was. This is so of real and of
imaginary parts, where complex arithmetic follows the law in both (`ModelComponent.Capable`); real
arithmetic leaves no imaginary parts.

Components that can be evaluated do run (`Model.Laid.yields_sweep`).
-/

namespace Sensitivity

variable {R M : Type} [ExactScalar R]

namespace StateVector

variable {v w : StateVector R} {n : Nat} {stored : Bool} {lane : Mode}

theorem HasLength.entry_of_not_stored (h : v.HasLength n stored)
    (hlane : ¬ (lane = .complex → stored = true)) (i : Nat) : v.entry lane i = 0 := by
  obtain ⟨rfl, hstored⟩ := Classical.not_imp.1 hlane
  have hnone : v.imag = none := by
    have hshadow := h.shadow
    rw [if_neg hstored] at hshadow
    exact Option.map_eq_none_iff.1 hshadow
  rw [entry, lane, hnone]
  rfl

/-- Vectors of one length are the same when they have the same entries. -/
theorem HasLength.ext (hv : v.HasLength n stored) (hw : w.HasLength n stored)
    (h : ∀ lane i, v.entry lane i = w.entry lane i) : v = w := by
  have hlane (lane : Mode) (hlane : lane = .complex → stored = true) : v.lane lane = w.lane lane := by
    have hsize := (hv.size_lane hlane).trans (hw.size_lane hlane).symm
    refine Array.ext hsize fun i hi hi' => ?_
    have hentry := h lane i
    rwa [entry, entry, Array.getElem?_eq_getElem hi, Array.getElem?_eq_getElem hi', Option.getD_some,
      Option.getD_some] at hentry
  refine eq_iff.2 ⟨hlane .real (fun h => by cases h), ?_⟩
  have hvs := hv.shadow
  have hws := hw.shadow
  cases stored with
  | false =>
    rw [Option.map_eq_none_iff.1 hvs, Option.map_eq_none_iff.1 hws]
  | true =>
    obtain ⟨im, him, -⟩ := Option.map_eq_some_iff.1 hvs
    obtain ⟨jm, hjm, -⟩ := Option.map_eq_some_iff.1 hws
    have hsame := hlane .complex fun _ => rfl
    rw [StateVector.lane, StateVector.lane, him, hjm, Option.getD_some, Option.getD_some] at hsame
    rw [him, hjm, hsame]

/-- The entries of a lane in which a span was overwritten. -/
theorem entry_of_lane {span : Span} {values : Array R}
    (hlane : w.lane lane = span.overwrite (v.lane lane) values)
    (hfits : span.stop ≤ (v.lane lane).size) (hsize : values.size = span.size) (i : Nat) :
    w.entry lane i =
      if span.contains i then (values[i - span.start]?).getD 0 else v.entry lane i := by
  rw [entry, hlane, Span.getD_overwrite hfits hsize]
  rfl

end StateVector

namespace ModelComponent

/-- What it takes of an affine component to be run in complex arithmetic: imaginary parts are carried,
and real parts follow the law there too. -/
def Capable (c : ModelComponent R M) (law : AffineLaw R) (complex : Bool) : Prop :=
  complex = true → c.component.complexSafe = true ∧ (c.component.Obeys law →
    Action.Reproduces c.component.computeComplex ComplexNumber.re law.offset law.slope)

/-- What a run of an affine component leaves in its outputs: in each part that the arithmetic carries,
what the law says of the inputs, or what was there before. Real arithmetic leaves no imaginary
parts. -/
structure Ran (c : ModelComponent R M) (law : AffineLaw R) (complex : Bool)
    (inputs before after : StateVector R) : Prop where
  computed : c.component.Obeys law → ∀ lane, (lane = .complex → complex = true) →
    ∀ r, c.outputs.contains r = true → after.entry lane r = law.offsetIn lane (r - c.outputs.start) +
      ∑ j ∈ Finset.range c.inputs.size,
        law.slope (r - c.outputs.start) j * inputs.entry lane (c.inputs.start + j)
  held : ¬ c.component.Obeys law → ∀ lane, (lane = .complex → complex = true) →
    ∀ r, c.outputs.contains r = true → after.entry lane r = before.entry lane r
  vanished : complex = false → ∀ r, c.outputs.contains r = true → after.entry .complex r = 0

variable {c : ModelComponent R M} {law : AffineLaw R} {complex stored : Bool}
  {inputs before after before' after' : StateVector R} {n k : Nat} {memory memory' : M}

/-- What a run leaves depends on the outputs of the component alone. -/
theorem Ran.congr (h : c.Ran law complex inputs before after)
    (hbefore : ∀ lane r, c.outputs.contains r = true → before'.entry lane r = before.entry lane r)
    (hafter : ∀ lane r, c.outputs.contains r = true → after'.entry lane r = after.entry lane r) :
    c.Ran law complex inputs before' after' where
  computed hobeys lane hlane r hr := (hafter lane r hr).trans (h.computed hobeys lane hlane r hr)
  held hobeys lane hlane r hr := by
    rw [hafter lane r hr, h.held hobeys lane hlane r hr, hbefore lane r hr]
  vanished hreal r hr := (hafter .complex r hr).trans (h.vanished hreal r hr)

/-- **What an evaluation of an affine component writes** into a part that the arithmetic carries. -/
theorem lane_of_evaluate (hc : c.Affine law) (hcapable : c.Capable law complex)
    (hinputs : inputs.HasLength n stored) (hbefore : before.HasLength k stored)
    (hsource : c.inputs.stop ≤ n) (htarget : c.outputs.stop ≤ k)
    (hstored : complex = true → stored = true)
    (h : (c.component.evaluate inputs c.inputs c.outputs complex).perform (memory, before) =
      (.ok (), memory', after)) {lane : Mode} (hlane : lane = .complex → complex = true) :
    ∃ values : Array R, values.size = c.outputs.size ∧
      after.lane lane = c.outputs.overwrite (before.lane lane) values ∧
      (c.component.Obeys law → ∀ i < c.outputs.size, (values[i]?).getD 0 = law.offsetIn lane i +
        ∑ j ∈ Finset.range c.inputs.size, law.slope i j * inputs.entry lane (c.inputs.start + j)) ∧
      (¬ c.component.Obeys law → values = c.outputs.slice (before.lane lane)) := by
  have hroom (lane : Mode) (hlane : lane = .complex → complex = true) :
      c.outputs.stop ≤ (before.lane lane).size :=
    htarget.trans (hbefore.size_lane fun h => hstored (hlane h)).ge
  obtain ⟨-, values, hafter, hidle, hobeys⟩ := Component.lane_of_evaluate law
    (fun lane hlane => hsource.trans (hinputs.size_lane fun h => hstored (hlane h)).ge) hroom h hlane
  have hfollows (hlaw : c.component.Obeys law) := hobeys hlaw
    (fun hcomplex => (hcapable (hlane hcomplex)).1) fun _ hcomplex => (hcapable hcomplex).2 hlaw
  refine ⟨values, ?_, hafter, fun hlaw => (hfollows hlaw).2, fun hlaw => ?_⟩
  · rcases hc.lawful with ⟨hholds, -⟩ | hlaw
    · rw [hidle hholds, Span.size_slice (hroom lane hlane)]
    · exact (hfollows hlaw).1
  · rcases hc.lawful with ⟨hholds, -⟩ | hobeys
    · exact hidle hholds
    · exact absurd hobeys hlaw

/-- Real arithmetic writes no imaginary parts. -/
theorem vanished_of_evaluate (hc : c.Affine law) (hbefore : before.HasLength k stored)
    (htarget : c.outputs.stop ≤ k)
    (h : (c.component.evaluate inputs c.inputs c.outputs false).perform (memory, before) =
      (.ok (), memory', after)) (r : Nat) : after.entry .complex r =
        if c.outputs.contains r then 0 else before.entry .complex r := by
  obtain ⟨-, z, hz, rfl⟩ | ⟨hfalse, -⟩ := Component.evaluate_eq_ok.1 h
  swap
  · cases hfalse
  have hsize : z.size = c.outputs.size := by
    rw [← (hbefore.covers htarget).size_readReal]
    rcases hc.lawful with ⟨hholds, -⟩ | hlaw
    · rw [hholds.real] at hz
      cases hz
      rfl
    · exact (hlaw.real hz).1
  cases him : before.imag with
  | none =>
    simp [StateVector.entry, StateVector.lane, StateVector.storeReal, StateVector.writeImag,
      StateVector.writeReal, him]
  | some im =>
    have hlane : (before.storeReal c.outputs z).lane .complex =
        c.outputs.overwrite (before.lane .complex) (z.map fun _ => 0) := by
      simp only [StateVector.lane, StateVector.storeReal, StateVector.writeImag,
        StateVector.writeReal, him, Option.map_some, Option.getD_some]
    have hroom : c.outputs.stop ≤ (before.lane .complex).size := by
      simpa [StateVector.lane, him] using (hbefore.covers htarget).2 im him
    rw [StateVector.entry_of_lane hlane hroom (by rw [Array.size_map, hsize]), Array.getElem?_map]
    cases z[r - c.outputs.start]? <;> rfl

/-- **An evaluation of an affine component** leaves what its law says, and nothing new elsewhere. -/
theorem ran_of_evaluate (hc : c.Affine law) (hcapable : c.Capable law complex)
    (hinputs : inputs.HasLength n stored) (hbefore : before.HasLength k stored)
    (hsource : c.inputs.stop ≤ n) (htarget : c.outputs.stop ≤ k)
    (hstored : complex = true → stored = true)
    (h : (c.component.evaluate inputs c.inputs c.outputs complex).perform (memory, before) =
      (.ok (), memory', after)) : c.Ran law complex inputs before after ∧
        ∀ lane r, c.outputs.contains r = false → after.entry lane r = before.entry lane r := by
  have hcarried (lane : Mode) (hlane : lane = .complex → complex = true) (r : Nat) :
      (c.outputs.contains r = false → after.entry lane r = before.entry lane r) ∧
      (c.outputs.contains r = true → (c.component.Obeys law → after.entry lane r =
        law.offsetIn lane (r - c.outputs.start) + ∑ j ∈ Finset.range c.inputs.size,
          law.slope (r - c.outputs.start) j * inputs.entry lane (c.inputs.start + j)) ∧
      (¬ c.component.Obeys law → after.entry lane r = before.entry lane r)) := by
    obtain ⟨values, hsize, hafter, hobeys, hholds⟩ := lane_of_evaluate hc hcapable hinputs hbefore
      hsource htarget hstored h hlane
    have hroom : c.outputs.stop ≤ (before.lane lane).size :=
      htarget.trans (hbefore.size_lane fun h => hstored (hlane h)).ge
    rw [StateVector.entry_of_lane hafter hroom hsize]
    refine ⟨fun hr => by rw [hr]; rfl, fun hr => ?_⟩
    rw [if_pos hr]
    have hplace : r - c.outputs.start < c.outputs.size := by
      rw [Span.contains_iff, Span.stop] at hr
      omega
    refine ⟨fun hlaw => hobeys hlaw _ hplace, fun hlaw => ?_⟩
    rw [hholds hlaw, Span.getElem?_slice_of_contains hr]
    rfl
  have hreal (hcomplex : complex = false) (r : Nat) : after.entry .complex r =
      if c.outputs.contains r then 0 else before.entry .complex r := by
    rw [hcomplex] at h
    exact vanished_of_evaluate hc hbefore htarget h r
  refine ⟨⟨fun hlaw lane hlane r hr => ((hcarried lane hlane r).2 hr).1 hlaw,
    fun hlaw lane hlane r hr => ((hcarried lane hlane r).2 hr).2 hlaw,
    fun hcomplex r hr => by rw [hreal hcomplex, if_pos hr]⟩, fun lane r hr => ?_⟩
  by_cases hlane : lane = .complex → complex = true
  · exact (hcarried lane hlane r).1 hr
  · obtain ⟨rfl, hcomplex⟩ := Classical.not_imp.1 hlane
    rw [hreal (by simpa using hcomplex), hr]
    rfl

/-- A component that a solver can work with: it is affine, it never fails, and it can be run in the
arithmetic that the solver uses. `stored` says that imaginary parts are stored. -/
structure Solvable (c : ModelComponent R M) (law : AffineLaw R) (stored complex : Bool) : Prop where
  affine : c.Affine law
  capable : c.Capable law complex
  unfailing : c.Unfailing ((stored && c.component.complexSafe) = true)

end ModelComponent

namespace Model

variable {m : Model R M} {laws : Nat → AffineLaw R} {scope : Span} {mode : Mode}
  {ks members : List Nat} {s t : ModelState R M} {k : Nat} {c : ModelComponent R M}

/-- The components with some numbers are there, and a solver can work with them. -/
def SolvableAt (m : Model R M) (laws : Nat → AffineLaw R) (mode : Mode) (ks : List Nat) : Prop :=
  ∀ k ∈ ks, ∃ c, m.components[k]? = some c ∧ c.Solvable (laws k) m.complex (m.isComplexIn mode)

/-- What some components keep is up to date. -/
def MaintainedAt (m : Model R M) (ks : List Nat) (s : ModelState R M) : Prop :=
  ∀ k ∈ ks, ∀ c, m.components[k]? = some c →
    ∃ l, s.components[k]? = some l ∧ l.Sound c m.policy

/-- Pulling the inputs of some components and running them leads from one state to another. -/
structure Swept (m : Model R M) (laws : Nat → AffineLaw R) (scope : Span) (complex : Bool)
    (ks : List Nat) (s t : ModelState R M) : Prop where
  inputs : ∀ lane p, t.inputs.entry lane p =
    if ∃ k ∈ ks, m.ownerOf? .input p = some k then m.pulled scope lane s p else s.inputs.entry lane p
  outside : ∀ lane r, (∀ k ∈ ks, m.ownerOf? .output r ≠ some k) →
    t.outputs.entry lane r = s.outputs.entry lane r
  ran : ∀ k ∈ ks, ∀ c, m.components[k]? = some c →
    c.Ran (laws k) complex t.inputs s.outputs t.outputs

omit [ExactScalar R] in
theorem complex_of_isComplexIn (h : m.isComplexIn mode = true) : m.complex = true :=
  (Bool.and_eq_true_iff.1 h).2

omit [ExactScalar R] in
theorem Formed.sized (hs : m.Formed s) {lane : Mode} (hlane : lane = .complex → m.complex = true) :
    m.Sized lane s where
  fits kind := by
    cases kind with
    | input => exact hs.inputs.size
    | output => exact hs.outputs.size
  lane kind := by
    cases kind with
    | input => exact hs.inputs.size_lane hlane
    | output => exact hs.outputs.size_lane hlane

/-- What a pulled input holds is still what it would hold if it were pulled. -/
theorem pulled_eq {lane : Mode} {p : Nat} (houtputs : t.outputs = s.outputs)
    (h : t.inputs.entry lane p = m.pulled scope lane s p ∨
      t.inputs.entry lane p = s.inputs.entry lane p) :
    m.pulled scope lane t p = m.pulled scope lane s p := by
  unfold pulled at h ⊢
  rw [houtputs]
  split
  · rfl
  · rename_i hnone
    rw [hnone, or_self] at h
    exact h

section Loops

variable (hm : m.Laid)

include hm

/-- Pulling the inputs of a component, entry by entry. -/
theorem Laid.entry_pull (scope : Span) (hs : m.Formed s) (hc : m.components[k]? = some c)
    (lane : Mode) (p : Nat) : (m.pull scope c s).inputs.entry lane p =
      if m.ownerOf? .input p = some k then m.pulled scope lane s p else s.inputs.entry lane p := by
  by_cases hlane : lane = .complex → m.complex = true
  · rw [((hm.pull_spec scope (hs.sized hlane) hc).2.2 p)]
    exact if_congr (hm.owner_input_iff hc).symm rfl rfl
  · have hzero : m.pulled scope lane s p = 0 := by
      unfold pulled
      split
      · exact hs.outputs.entry_of_not_stored hlane _
      · exact hs.inputs.entry_of_not_stored hlane _
    rw [(hs.pull scope c).inputs.entry_of_not_stored hlane, hzero,
      hs.inputs.entry_of_not_stored hlane, ite_self]

/-- **Pulling the inputs of some components**, one after another, reads the outputs that there are. -/
theorem Laid.yields_pulls (hks : ∀ k ∈ ks, ∃ c, m.components[k]? = some c) (hs : m.Formed s) :
    Action.Yields (fun _ t => m.Formed t ∧ t.outputs = s.outputs ∧ t.components = s.components ∧
        ∀ lane p, t.inputs.entry lane p =
          if ∃ k ∈ ks, m.ownerOf? .input p = some k then m.pulled scope lane s p
          else s.inputs.entry lane p)
      ((Action.forEach ks fun k => do
          let component ← m.component k
          modify (m.pull scope component) : ModelWork R M Unit).perform s) := by
  induction ks generalizing s with
  | nil => exact Action.yields_pure ⟨hs, rfl, rfl, fun lane p => (if_neg (by simp)).symm⟩
  | cons k rest ih =>
    obtain ⟨⟨c, hc⟩, hrest⟩ := List.forall_mem_cons.1 hks
    have houtputs : (m.pull scope c s).outputs = s.outputs := outputs_pull scope c s
    refine Action.yields_bind (yields_component_bind hc (Action.yields_modify
      (Q := fun _ u => u = m.pull scope c s) rfl)) fun _ u hu => ?_
    subst hu
    refine (ih hrest (hs.pull scope c)).mono fun _ t ht => ?_
    obtain ⟨hformed, hout, hcomponents, hentries⟩ := ht
    refine ⟨hformed, hout.trans houtputs, hcomponents.trans (m.components_pull scope c s),
      fun lane p => ?_⟩
    have hfirst := hm.entry_pull scope hs hc lane p
    have hpulled : m.pulled scope lane (m.pull scope c s) p = m.pulled scope lane s p := by
      refine pulled_eq houtputs ?_
      rw [hfirst]
      split
      · exact .inl rfl
      · exact .inr rfl
    rw [hentries, hpulled, hfirst]
    by_cases hlater : ∃ j ∈ rest, m.ownerOf? .input p = some j
    · rw [if_pos hlater, if_pos (hlater.imp fun _ h => ⟨List.mem_cons_of_mem _ h.1, h.2⟩)]
    · simp only [hlater, if_false, List.mem_cons, exists_eq_or_imp, or_false]

omit [ExactScalar R] in
theorem Laid.stop_outputs_le (hc : m.components[k]? = some c) : c.outputs.stop ≤ m.outputLength :=
  hm.inside c (List.mem_of_getElem? hc) .output

omit [ExactScalar R] in
theorem Laid.stop_inputs_le (hc : m.components[k]? = some c) : c.inputs.stop ≤ m.inputLength :=
  hm.inside c (List.mem_of_getElem? hc) .input

/-- **A component that a solver can work with is evaluated** as its law says. -/
theorem Laid.exists_evaluate (hc : m.components[k]? = some c)
    (hsolvable : c.Solvable (laws k) m.complex (m.isComplexIn mode)) (hs : m.Formed s) (memory : M) :
    ∃ μ v, (c.component.evaluate s.inputs c.inputs c.outputs (m.isComplexIn mode)).perform
        (memory, s.outputs) = (.ok (), μ, v) ∧
      c.Ran (laws k) (m.isComplexIn mode) s.inputs s.outputs v ∧
      ∀ lane r, c.outputs.contains r = false → v.entry lane r = s.outputs.entry lane r := by
  have hsource := hm.stop_inputs_le hc
  have htarget := hm.stop_outputs_le hc
  have hneeded (h : m.isComplexIn mode = true) : (m.complex && c.component.complexSafe) = true := by
    rw [complex_of_isComplexIn h, (hsolvable.capable h).1]
    rfl
  obtain ⟨μ, v, heval⟩ := hsolvable.unfailing.evaluates.exists_evaluate (hs.inputs.covers hsource)
    (hs.outputs.covers htarget) hneeded memory
  exact ⟨μ, v, heval, ModelComponent.ran_of_evaluate hsolvable.affine hsolvable.capable hs.inputs
    hs.outputs hsource htarget complex_of_isComplexIn heval⟩

/-- **A component that a solver can work with runs.** -/
theorem Laid.yields_compute (hc : m.components[k]? = some c)
    (hsolvable : c.Solvable (laws k) m.complex (m.isComplexIn mode)) (hs : m.Formed s)
    (hk : k ∈ members) (hkept : m.MaintainedAt members s) :
    Action.Yields (fun _ t => m.Formed t ∧ m.MaintainedAt members t ∧ t.inputs = s.inputs ∧
        c.Ran (laws k) (m.isComplexIn mode) s.inputs s.outputs t.outputs ∧
        ∀ lane r, c.outputs.contains r = false → t.outputs.entry lane r = s.outputs.entry lane r)
      ((m.compute k mode).perform s) := by
  obtain ⟨l, hl, -⟩ := hkept k hk c hc
  obtain ⟨μ, v, heval, hran, hbeside⟩ := hm.exists_evaluate hc hsolvable hs l.memory
  have hdone : (m.compute k mode).perform s = (.ok (), { s.modifyComponent k fun l =>
      { l with memory := μ, runs := l.runs + 1 } with outputs := v }) := by
    obtain ⟨_, t, hperform, rfl⟩ : Action.Yields (fun _ t => t = { s.modifyComponent k fun l =>
        { l with memory := μ, runs := l.runs + 1 } with outputs := v })
        ((m.compute k mode).perform s) := by
      refine yields_component_bind hc (yields_kept_bind hl ⟨(), _, ?_, rfl⟩)
      simp only [Action.perform_of, heval, Outcome.mapError]
    exact hperform
  refine ⟨(), _, hdone, (formed_compute k mode).of_ok hs hdone, fun j hj d hd => ?_, rfl, hran,
    hbeside⟩
  obtain ⟨l', hl', hsound⟩ := hkept j hj d hd
  by_cases hjk : k = j
  · subst hjk
    exact ⟨_, ModelState.getElem?_modifyComponent hl' _,
      ⟨hsound.holds, hsound.length_eq, hsound.method⟩⟩
  · exact ⟨l', (List.getElem?_modify_ne _ _ hjk).trans hl', hsound⟩

/-- **Components that a solver can work with run one after another**, all on the same inputs. -/
theorem Laid.yields_runs (hsolvable : m.SolvableAt laws mode ks) (hnodup : ks.Nodup)
    (hmembers : ∀ k ∈ ks, k ∈ members) (hs : m.Formed s) (hkept : m.MaintainedAt members s) :
    Action.Yields (fun _ t => m.Formed t ∧ m.MaintainedAt members t ∧ t.inputs = s.inputs ∧
        (∀ lane r, (∀ k ∈ ks, m.ownerOf? .output r ≠ some k) →
          t.outputs.entry lane r = s.outputs.entry lane r) ∧
        ∀ k ∈ ks, ∀ c, m.components[k]? = some c →
          c.Ran (laws k) (m.isComplexIn mode) s.inputs s.outputs t.outputs)
      ((Action.forEach ks fun k => m.compute k mode).perform s) := by
  induction ks generalizing s with
  | nil => exact Action.yields_pure ⟨hs, hkept, rfl, fun _ _ _ => rfl, nofun⟩
  | cons k rest ih =>
    obtain ⟨⟨c, hc, hcomponent⟩, hrest⟩ := List.forall_mem_cons.1 hsolvable
    obtain ⟨hk, hlater⟩ := List.forall_mem_cons.1 hmembers
    obtain ⟨hfresh, hnodup⟩ := List.nodup_cons.1 hnodup
    refine Action.yields_bind (hm.yields_compute hc hcomponent hs hk hkept) fun _ u hu => ?_
    obtain ⟨hformed, hmaintained, hinputs, hran, hbeside⟩ := hu
    refine (ih hrest hnodup hlater hformed hmaintained).mono fun _ t ht => ?_
    obtain ⟨hformed, hmaintained, hinputs', hbeside', hran'⟩ := ht
    refine ⟨hformed, hmaintained, hinputs'.trans hinputs, fun lane r hr => ?_, fun j hj d hd => ?_⟩
    · obtain ⟨hfirst, hothers⟩ := List.forall_mem_cons.1 hr
      have hout : c.outputs.contains r = false := by
        rw [Bool.eq_false_iff]
        exact fun hin => hfirst ((hm.owner_output_iff hc).2 hin)
      rw [hbeside' lane r hothers, hbeside lane r hout]
    · rcases List.mem_cons.1 hj with rfl | hj
      · obtain rfl := Option.some.inj (hc.symm.trans hd)
        refine hran.congr (fun _ _ _ => rfl) fun lane r hr => hbeside' lane r fun l hl howner => ?_
        rw [(hm.owner_output_iff hc).2 hr] at howner
        exact hfresh (Option.some.inj howner ▸ hl)
      · rw [← hinputs]
        refine (hran' j hj d hd).congr (fun lane r hr => (hbeside lane r ?_).symm) fun _ _ _ => rfl
        rw [Bool.eq_false_iff]
        intro hin
        have howner := (hm.owner_output_iff hc).2 hin
        rw [(hm.owner_output_iff hd).2 hr] at howner
        exact hfresh (Option.some.inj howner ▸ hj)

/-- **A sweep over components that a solver can work with** succeeds. -/
theorem Laid.yields_sweep (hsolvable : m.SolvableAt laws mode ks) (hnodup : ks.Nodup)
    (hs : m.Formed s) (hkept : m.MaintainedAt ks s) {α : Type} {rest : ModelWork R M α}
    {Q : α → ModelState R M → Prop}
    (hrest : ∀ t, m.Formed t → m.MaintainedAt ks t → m.Swept laws scope (m.isComplexIn mode) ks s t →
      Action.Yields Q (rest.perform t)) :
    Action.Yields Q ((do
      Action.forEach ks fun k => do
        let component ← m.component k
        modify (m.pull scope component)
      Action.forEach ks fun k => m.compute k mode
      rest : ModelWork R M α).perform s) := by
  refine Action.yields_bind (hm.yields_pulls
    (fun k hk => (hsolvable k hk).imp fun _ h => h.1) hs) fun _ u hu => ?_
  obtain ⟨hformed, houtputs, hcomponents, hentries⟩ := hu
  have hmaintained : m.MaintainedAt ks u := fun k hk c hc => hcomponents ▸ hkept k hk c hc
  refine Action.yields_bind (hm.yields_runs hsolvable hnodup (fun _ h => h) hformed hmaintained)
    fun _ t ht => ?_
  obtain ⟨hformed, hmaintained, hinputs, hbeside, hran⟩ := ht
  refine hrest t hformed hmaintained ⟨fun lane p => ?_, fun lane r hr => ?_, fun k hk c hc => ?_⟩
  · rw [hinputs, hentries]
  · rw [hbeside lane r hr, houtputs]
  · rw [hinputs, ← houtputs]
    exact hran k hk c hc

end Loops

end Model

end Sensitivity
