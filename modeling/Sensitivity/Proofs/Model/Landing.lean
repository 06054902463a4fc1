import Mathlib
import Sensitivity.Proofs.Model.Assembling
import Sensitivity.Proofs.Model.ChainRule
import Sensitivity.Proofs.Model.Isolating
import Sensitivity.Proofs.Model.Upkeep

/-!
# Newton's method on affine components

A residual compares the outputs that there are with those that the members compute from them
(`NewtonFrame.Over.yields_residual`). The step that it asks for solves a system whose matrix is
`1 - gain`, for real and for imaginary parts (`NewtonFrame.Over.yields_advance`). When affine members
run again after such a step, each of them finds what it computes (`Model.Swept.lands`): an output
moves by the step, and what is computed for it moves by its gains times the step. So the next residual
is zero, and the iteration ends there (`Model.newton_affine`).
-/

namespace Sensitivity

/-- Solvers without rounding that solve every system with one solution. -/
class CompleteSolver (R : Type) [ExactScalar R] [DirectSolver R] : Prop extends ExactSolver R where
  answers : ∀ {a b : DenseMatrix R}, a.rows = a.cols → a.rows = b.rows →
    (Matrix.of fun i j : Fin a.rows => a.entry i j).det ≠ 0 →
      ∃ x, DirectSolver.solve a b = some x ∧ x.rows = b.rows ∧ x.cols = b.cols

variable {R M : Type} [ExactScalar R]

/-- Gains times changes are slopes times what the inputs read of the changes. -/
theorem Flow.sum_gain {R : Type} [CommRing R] (F : Flow R) (r : Nat) (S : Finset Nat) (d : Nat → R) :
    ∑ q ∈ S, F.gain r q * d q = ∑ p ∈ Finset.range F.inputs, F.slope r p *
      ((F.wire p).map fun q => if q ∈ S then d q else 0).getD 0 := by
  simp only [gain, Finset.sum_mul]
  rw [Finset.sum_comm]
  refine Finset.sum_congr rfl fun p _ => ?_
  cases F.wire p with
  | none => simp
  | some q₀ => simp [ite_mul, mul_ite]

namespace Model

variable {m : Model R M} {laws : Nat → AffineLaw R} {scope unknowns : Span} {complex : Bool}
  {ks : List Nat} {s t u v : ModelState R M} {k : Nat} {c : ModelComponent R M} {lane : Mode}

/-- What the members compute for an output: a base that only the outputs of those that leave theirs
alone have a part in, and slopes times the inputs. -/
theorem Swept.output_eq (h : m.Swept laws scope complex ks s t) (hm : m.Laid) (hk : k ∈ ks)
    (hc : m.components[k]? = some c) (hlane : lane = .complex → complex = true)
    (hobeys : c.component.Obeys (laws k)) {r : Nat} (hr : c.outputs.contains r = true) :
    t.outputs.entry lane r = (laws k).offsetIn lane (r - c.outputs.start) +
      ∑ p ∈ Finset.range m.inputLength, (m.flow laws).slope r p * t.inputs.entry lane p := by
  rw [(h.ran k hk c hc).computed hobeys lane hlane r hr, hm.sum_slope hc hr]

/-- **Affine components find what they compute** when they run again after a step that solves the
system: the outputs moved by the step, and what is computed for them moved by the gains times the
step. -/
theorem Swept.lands (hm : m.Laid) (hscope : ∀ k ∈ ks, scope.contains k = true)
    (hunknowns : ∀ r, unknowns.contains r = true ↔ ∃ k ∈ ks, m.ownerOf? .output r = some k)
    (h : m.Swept laws scope complex ks s u) (h' : m.Swept laws scope complex ks t v)
    {d : Mode → Nat → R} (hinputs : t.inputs = u.inputs)
    (hmoved : ∀ lane, (lane = .complex → complex = true) → ∀ q, t.outputs.entry lane q =
      s.outputs.entry lane q + if unknowns.contains q then d lane q else 0)
    (hvanished : complex = false → ∀ q, unknowns.contains q = true → t.outputs.entry .complex q = 0)
    (hsolves : ∀ lane, (lane = .complex → complex = true) → ∀ r, unknowns.contains r = true →
      d lane r - ∑ q ∈ Finset.Ico unknowns.start unknowns.stop, (m.flow laws).gain r q * d lane q =
        u.outputs.entry lane r - s.outputs.entry lane r) {r : Nat}
    (hr : unknowns.contains r = true) : v.outputs.entry lane r = t.outputs.entry lane r := by
  obtain ⟨k, hk, howner⟩ := (hunknowns r).1 hr
  obtain ⟨c, hc, hin⟩ := hm.exists_component howner
  have hin : c.outputs.contains r = true := hin
  by_cases hlane : lane = .complex → complex = true
  swap
  · obtain ⟨rfl, hreal⟩ := Classical.not_imp.1 hlane
    have hreal : complex = false := by simpa using hreal
    rw [(h'.ran k hk c hc).vanished hreal r hin, hvanished hreal r hr]
  by_cases hobeys : c.component.Obeys (laws k)
  swap
  · exact (h'.ran k hk c hc).held hobeys lane hlane r hin
  -- what is computed moves with the inputs that read unknowns
  have hchange (p : Nat) (hp : (m.flow laws).slope r p ≠ 0) :
      v.inputs.entry lane p = u.inputs.entry lane p +
        (((m.flow laws).wire p).map fun q =>
          if q ∈ Finset.Ico unknowns.start unknowns.stop then d lane q else 0).getD 0 := by
    have hown : m.ownerOf? .input p = some k := by
      rw [hm.slope_flow hc hin, ite_ne_right_iff] at hp
      exact (hm.owner_input_iff hc).2 hp.1
    rw [h'.inputs, if_pos ⟨k, hk, hown⟩]
    have hmem (q : Nat) :
        q ∈ Finset.Ico unknowns.start unknowns.stop ↔ unknowns.contains q = true := by
      rw [Finset.mem_Ico, Span.contains_iff]
    rw [show (m.flow laws).wire p = m.wire p from rfl]
    cases hread : m.wire p with
    | none =>
      rw [Option.map_none, Option.getD_none, add_zero, pulled, hread, Option.filter_none, hinputs]
    | some q =>
      rw [Option.map_some, Option.getD_some, if_congr (hmem q) rfl rfl]
      by_cases hinside : m.inScope scope q = true
      · have hpulled (w : ModelState R M) : m.pulled scope lane w p = w.outputs.entry lane q := by
          rw [pulled, hread, Option.filter_some, hinside]
          rfl
        rw [h.inputs, if_pos ⟨k, hk, hown⟩, hpulled, hpulled, hmoved lane hlane]
      · have hout : ¬ unknowns.contains q = true := fun hq => by
          obtain ⟨j, hj, hjowner⟩ := (hunknowns q).1 hq
          rw [inScope, hjowner, Option.any_some, hscope j hj] at hinside
          exact hinside rfl
        rw [if_neg hout, add_zero, pulled, hread, Option.filter_some, if_neg hinside, hinputs]
  have hmove : v.outputs.entry lane r = u.outputs.entry lane r +
      ∑ q ∈ Finset.Ico unknowns.start unknowns.stop, (m.flow laws).gain r q * d lane q := by
    rw [h'.output_eq hm hk hc hlane hobeys hin, h.output_eq hm hk hc hlane hobeys hin, Flow.sum_gain,
      show (m.flow laws).inputs = m.inputLength from rfl, add_assoc, ← Finset.sum_add_distrib]
    refine congrArg (_ + ·) (Finset.sum_congr rfl fun p _ => ?_)
    by_cases hp : (m.flow laws).slope r p = 0
    · simp only [hp, zero_mul, add_zero]
    · rw [hchange p hp, mul_add]
  rw [hmove, hmoved lane hlane, if_pos hr]
  have hsolved := hsolves lane hlane r hr
  linear_combination -hsolved

end Model

namespace StateVector

variable {v : StateVector R} {span : Span} {values : Array R} {n i : Nat} {stored : Bool}
  {lane : Mode}

/-- The entries of a vector whose real parts were overwritten in a span. -/
theorem HasLength.entry_writeReal (hv : v.HasLength n stored) (hspan : span.stop ≤ n)
    (hsize : values.size = span.size) : (v.writeReal span values).entry lane i =
      if lane = .real ∧ span.contains i then (values[i - span.start]?).getD 0
      else v.entry lane i := by
  cases lane with
  | real =>
    have hlane : (v.writeReal span values).lane .real = span.overwrite (v.lane .real) values := rfl
    rw [entry_of_lane hlane (hspan.trans hv.size.ge) hsize]
    simp
  | complex => simp [entry, lane, writeReal]

/-- The entries of a vector whose imaginary parts were overwritten in a span. -/
theorem HasLength.entry_writeImag (hv : v.HasLength n true) (hspan : span.stop ≤ n)
    (hsize : values.size = span.size) : (v.writeImag span values).entry lane i =
      if lane = .complex ∧ span.contains i then (values[i - span.start]?).getD 0
      else v.entry lane i := by
  cases lane with
  | real => simp [entry, lane, writeImag]
  | complex =>
    obtain ⟨im, him, -⟩ := Option.map_eq_some_iff.1 hv.shadow
    have hlane : (v.writeImag span values).lane .complex =
        span.overwrite (v.lane .complex) values := by
      simp [lane, writeImag, him]
    rw [entry_of_lane hlane (hspan.trans (hv.size_lane fun _ => rfl).ge) hsize]
    simp

/-- Combining a slice with as many values, entry by entry. -/
theorem getD_zipWith_slice (f : R → R → R) {a : Array R} (ha : span.stop ≤ a.size)
    (hsize : values.size = span.size) : (Array.zipWith f (span.slice a) values).size = span.size ∧
      ∀ i < span.size, ((Array.zipWith f (span.slice a) values)[i]?).getD 0 =
        f ((a[span.start + i]?).getD 0) ((values[i]?).getD 0) := by
  refine ⟨by rw [Array.size_zipWith, Span.size_slice ha, hsize, Nat.min_self], fun i hi => ?_⟩
  have hlt : span.start + i < a.size := by
    rw [Span.stop] at ha
    omega
  rw [Array.getElem?_zipWith, Span.getElem?_slice, if_pos hi, Array.getElem?_eq_getElem hlt,
    Array.getElem?_eq_getElem (hi.trans_eq hsize.symm)]
  rfl

/-- The imaginary parts in a span are those of the shadow. -/
theorem HasLength.readImag_eq (hv : v.HasLength n true) (span : Span) :
    v.readImag span = span.slice (v.lane .complex) := by
  obtain ⟨im, him, -⟩ := Option.map_eq_some_iff.1 hv.shadow
  simp [readImag, lane, him]

variable {w : StateVector R}

/-- What is read in a span is written back. -/
theorem HasLength.entry_writeReal_readReal (hv : v.HasLength n stored) (hw : w.HasLength n stored)
    (hspan : span.stop ≤ n) : (v.writeReal span (w.readReal span)).entry lane i =
      if lane = .real ∧ span.contains i then w.entry lane i else v.entry lane i := by
  rw [hv.entry_writeReal hspan (hw.covers hspan).size_readReal]
  split
  · rename_i hi
    obtain ⟨rfl, hi⟩ := hi
    rw [readReal, Span.getElem?_slice_of_contains hi]
    rfl
  · rfl

theorem HasLength.entry_writeImag_readImag (hv : v.HasLength n true) (hw : w.HasLength n true)
    (hspan : span.stop ≤ n) : (v.writeImag span (w.readImag span)).entry lane i =
      if lane = .complex ∧ span.contains i then w.entry lane i else v.entry lane i := by
  have hfits : span.stop ≤ (w.lane .complex).size := hspan.trans (hw.size_lane fun _ => rfl).ge
  rw [hw.readImag_eq, hv.entry_writeImag hspan (Span.size_slice hfits)]
  split
  · rename_i hi
    obtain ⟨rfl, hi⟩ := hi
    rw [Span.getElem?_slice_of_contains hi]
    rfl
  · rfl

/-- Adding to the real or to the imaginary parts in a span. -/
theorem HasLength.entry_addReal (hv : v.HasLength n stored) (hspan : span.stop ≤ n)
    (hsize : values.size = span.size) :
    (v.writeReal span (Array.zipWith (· + ·) (v.readReal span) values)).entry lane i =
      v.entry lane i +
        if lane = .real ∧ span.contains i then (values[i - span.start]?).getD 0 else 0 := by
  obtain ⟨hsum, hentries⟩ := getD_zipWith_slice (· + ·) (hspan.trans hv.size.ge) hsize
  rw [readReal, hv.entry_writeReal hspan hsum]
  split
  · rename_i hi
    obtain ⟨rfl, hi⟩ := hi
    rw [Span.contains_iff, Span.stop] at hi
    rw [hentries _ (by omega), Nat.add_sub_cancel' hi.1]
    rfl
  · exact (add_zero _).symm

theorem HasLength.entry_addImag (hv : v.HasLength n true) (hspan : span.stop ≤ n)
    (hsize : values.size = span.size) :
    (v.writeImag span (Array.zipWith (· + ·) (v.readImag span) values)).entry lane i =
      v.entry lane i +
        if lane = .complex ∧ span.contains i then (values[i - span.start]?).getD 0 else 0 := by
  obtain ⟨hsum, hentries⟩ := getD_zipWith_slice (· + ·)
    (hspan.trans (hv.size_lane fun _ => rfl).ge) hsize
  rw [hv.readImag_eq, hv.entry_writeImag hspan hsum]
  split
  · rename_i hi
    obtain ⟨rfl, hi⟩ := hi
    rw [Span.contains_iff, Span.stop] at hi
    rw [hentries _ (by omega), Nat.add_sub_cancel' hi.1]
    rfl
  · exact (add_zero _).symm

/-- The differences of two vectors in a span. -/
theorem HasLength.getD_sub_readReal (hv : v.HasLength n stored) (hw : w.HasLength n stored)
    (hspan : span.stop ≤ n) :
    (Array.zipWith (· - ·) (v.readReal span) (w.readReal span)).size = span.size ∧
      ∀ i < span.size, ((Array.zipWith (· - ·) (v.readReal span) (w.readReal span))[i]?).getD 0 =
        v.entry .real (span.start + i) - w.entry .real (span.start + i) := by
  obtain ⟨hsize, hentries⟩ := getD_zipWith_slice (· - ·) (hspan.trans hv.size.ge)
    (hw.covers hspan).size_readReal
  exact ⟨hsize, fun i hi => (hentries i hi).trans
    (congrArg (v.entry .real (span.start + i) - ·) (Span.getD_slice 0 hi))⟩

theorem HasLength.getD_sub_readImag (hv : v.HasLength n true) (hw : w.HasLength n true)
    (hspan : span.stop ≤ n) :
    (Array.zipWith (· - ·) (v.readImag span) (w.readImag span)).size = span.size ∧
      ∀ i < span.size, ((Array.zipWith (· - ·) (v.readImag span) (w.readImag span))[i]?).getD 0 =
        v.entry .complex (span.start + i) - w.entry .complex (span.start + i) := by
  have hfits : span.stop ≤ (w.lane .complex).size := hspan.trans (hw.size_lane fun _ => rfl).ge
  rw [hv.readImag_eq, hw.readImag_eq]
  obtain ⟨hsize, hentries⟩ := getD_zipWith_slice (· - ·) (hspan.trans (hv.size_lane fun _ => rfl).ge)
    (Span.size_slice hfits)
  exact ⟨hsize, fun i hi => (hentries i hi).trans
    (congrArg (v.entry .complex (span.start + i) - ·) (Span.getD_slice 0 hi))⟩

end StateVector

/-- The residual of real or of imaginary parts. -/
def Residual.part (r : Residual R) : Mode → Option (Array R)
  | .real => some r.re
  | .complex => r.im

namespace NewtonFrame

/-- A residual compares the unknowns in one state with what is computed for them in another one. -/
structure Compares (frame : NewtonFrame R) (complex : Bool) (r : Residual R) (s u : ModelState R M) :
    Prop where
  computed : r.computed = u.outputs.readReal frame.unknowns
  size : r.computed.size = frame.unknowns.size
  part : ∀ lane, (lane = .complex → complex = true) → ∃ a, r.part lane = some a ∧
    a.size = frame.unknowns.size ∧ ∀ i < frame.unknowns.size, (a[i]?).getD 0 =
      s.outputs.entry lane (frame.unknowns.start + i) -
        u.outputs.entry lane (frame.unknowns.start + i)
  real : complex = false → r.im = none

section Residual

variable {m : Model R M} {frame : NewtonFrame R} {laws : Nat → AffineLaw R} {s u : ModelState R M}

/-- In real arithmetic the members leave no imaginary parts in unknowns. -/
theorem Over.vanished (hframe : frame.Over m) (hm : m.Laid)
    (hswept : m.Swept laws frame.scope false frame.components s u) {q : Nat}
    (hq : frame.unknowns.contains q = true) : u.outputs.entry .complex q = 0 := by
  obtain ⟨k, hk, howner⟩ := hframe.owned q hq
  obtain ⟨c, hc⟩ := hframe.there k hk
  exact (hswept.ran k hk c hc).vanished rfl q ((hm.owner_output_iff hc).1 howner)

/-- **A residual** compares the outputs with those that the members compute from them. It leaves the
outputs as they were, but clears imaginary parts of unknowns in real arithmetic. -/
theorem Over.yields_residual (hframe : frame.Over m) (hm : m.Laid)
    (hsolvable : m.SolvableAt laws frame.mode frame.components) (hs : m.Formed s)
    (hkept : m.MaintainedAt frame.components s) :
    Action.Yields (fun r t => m.Formed t ∧ m.MaintainedAt frame.components t ∧ ∃ u,
        m.Swept laws frame.scope (m.isComplexIn frame.mode) frame.components s u ∧
        frame.Compares (m.isComplexIn frame.mode) r s u ∧ t.inputs = u.inputs ∧
        ∀ lane q, t.outputs.entry lane q =
          if frame.unknowns.contains q ∧ lane = .complex ∧ m.isComplexIn frame.mode = false then 0
          else s.outputs.entry lane q)
      ((frame.residual m).perform s) := by
  unfold residual
  refine Action.yields_get_bind (hm.yields_sweep hsolvable hframe.nodup hs hkept
    fun u hu hukept hswept => ?_)
  have hU := hframe.inside
  have houtside (lane : Mode) (q : Nat) (hq : ¬ frame.unknowns.contains q = true) :
      u.outputs.entry lane q = s.outputs.entry lane q :=
    hswept.outside lane q fun k hk howner => hq ((hframe.unknown_iff hm).2 ⟨k, hk, howner⟩)
  have hrestored : (u.outputs.writeReal frame.unknowns
      (s.outputs.readReal frame.unknowns)).HasLength m.outputLength m.complex :=
    hu.outputs.congr (Span.size_overwrite _ _ _) rfl
  refine Action.yields_get_bind (Action.yields_bind (Q := fun _ t => t = _) ⟨(), _, rfl, rfl⟩
    fun _ w hw => ?_)
  subst hw
  have hreal := hs.outputs.getD_sub_readReal hu.outputs hU
  have hcomputed := (hu.outputs.covers hU).size_readReal
  cases hcomplex : m.isComplexIn frame.mode with
  | false =>
    refine Action.yields_pure ⟨⟨hu.inputs, hrestored, hu.components⟩, hukept, u, hcomplex ▸ hswept,
      ⟨rfl, hcomputed, fun lane hlane => ?_, fun _ => rfl⟩, rfl, fun lane q => ?_⟩
    · cases lane with
      | real => exact ⟨_, rfl, hreal⟩
      | complex => cases hlane rfl
    · rw [hu.outputs.entry_writeReal_readReal hs.outputs hU]
      by_cases hq : frame.unknowns.contains q = true
      swap
      · simp only [hq, and_false, false_and, if_false, houtside lane q hq, Bool.false_eq_true]
      cases lane with
      | real => simp [hq]
      | complex => simp [hq, hframe.vanished hm (hcomplex ▸ hswept) hq]
  | true =>
    rw [Model.complex_of_isComplexIn hcomplex] at hrestored
    have hsc := Model.complex_of_isComplexIn hcomplex ▸ hs.outputs
    have huc := Model.complex_of_isComplexIn hcomplex ▸ hu.outputs
    refine Action.yields_bind (Q := fun _ t => t = _) ⟨(), _, rfl, rfl⟩ fun _ w hw => ?_
    subst hw
    refine Action.yields_pure ⟨⟨hu.inputs, ?_, hu.components⟩, hukept, u, hcomplex ▸ hswept,
      ⟨rfl, hcomputed, fun lane _ => ?_, nofun⟩, rfl, fun lane q => ?_⟩
    · rw [Model.complex_of_isComplexIn hcomplex]
      exact hrestored.congr rfl (StateVector.map_size_writeImag _ _ _)
    · cases lane with
      | real => exact ⟨_, rfl, hreal⟩
      | complex => exact ⟨_, rfl, hsc.getD_sub_readImag huc hU⟩
    · rw [hrestored.entry_writeImag_readImag hsc hU, huc.entry_writeReal_readReal hsc hU]
      by_cases hq : frame.unknowns.contains q = true
      · cases lane <;> simp [hq]
      · simp [hq, houtside lane q hq]

end Residual

section Step

variable {m : Model R M} {frame : NewtonFrame R} {laws : Nat → AffineLaw R} {s t u : ModelState R M}
  {r : Residual R} {B : DenseMatrix R} {f : Nat → Nat → R}

/-- What a member computed follows its law at the inputs that it read. -/
theorem Over.follows_of_swept (hframe : frame.Over m) {complex : Bool}
    (hswept : m.Swept laws frame.scope complex frame.components s u) {k : Nat}
    (hk : k ∈ frame.components) {c : ModelComponent R M} (hc : m.components[k]? = some c) :
    c.Follows (laws k) (u.inputs.readReal c.inputs)
      ((⟨c.outputs.start - frame.unknowns.start, c.outputs.size⟩ : Span).slice
        (u.outputs.readReal frame.unknowns)) := by
  intro hobeys i hi
  obtain ⟨hstart, hstop⟩ := hframe.within k hk c hc
  simp only [Span.stop] at hstop
  have hplace : c.outputs.contains (c.outputs.start + i) = true :=
    Span.contains_iff.2 ⟨Nat.le_add_right _ _, Nat.add_lt_add_left hi _⟩
  have hcomputed := (hswept.ran k hk c hc).computed hobeys .real (fun h => by cases h) _ hplace
  rw [Nat.add_sub_cancel_left] at hcomputed
  have hinside : c.outputs.start - frame.unknowns.start + i < frame.unknowns.size := by omega
  rw [Span.getElem?_slice, if_pos hi, StateVector.readReal, Span.getElem?_slice, if_pos hinside,
    show frame.unknowns.start + (c.outputs.start - frame.unknowns.start + i) = c.outputs.start + i by
      omega]
  refine hcomputed.trans (congrArg (_ + ·) (Finset.sum_congr rfl fun j hj => ?_))
  rw [StateVector.readReal, Span.getD_slice 0 (Finset.mem_range.1 hj)]
  rfl

variable [DirectSolver R] [CompleteSolver R]

/-- **A correction solves the system** of a residual. -/
theorem yields_correction (hB : frame.Square B f)
    (hdet : (Matrix.of fun i j : Fin frame.unknowns.size =>
      f (frame.unknowns.start + i) (frame.unknowns.start + j)).det ≠ 0) {b : Array R}
    (hsize : b.size = frame.unknowns.size) :
    Action.Yields (fun d t => t = s ∧ d.size = frame.unknowns.size ∧ ∀ i < frame.unknowns.size,
        ∑ j ∈ Finset.range frame.unknowns.size,
          f (frame.unknowns.start + i) (frame.unknowns.start + j) * (d[j]?).getD 0 = -(b[i]?).getD 0)
      ((correction B b : ModelWork R M (Array R)).perform s) := by
  have hlength : (b.toList.map fun x => -x).length = frame.unknowns.size := by
    rw [List.length_map, Array.length_toList, hsize]
  have hmatrix : (Matrix.of fun i j : Fin B.rows => B.entry i j) = (Matrix.of fun i j :
      Fin frame.unknowns.size => f (frame.unknowns.start + i) (frame.unknowns.start + j)).submatrix
        (finCongr hB.rows) (finCongr hB.rows) := by
    ext i j
    exact hB.entry i (i.2.trans_eq hB.rows) j (j.2.trans_eq hB.rows)
  have hdet' : (Matrix.of fun i j : Fin B.rows => B.entry i j).det ≠ 0 := by
    rwa [hmatrix, Matrix.det_submatrix_equiv_self]
  have hsquare : B.rows = B.cols := hB.rows.trans hB.cols.symm
  have hheight : B.rows = (DenseMatrix.ofColumn (b.toList.map fun x => -x)).rows :=
    hB.rows.trans hlength.symm
  obtain ⟨x, hx, hxrows, -⟩ := CompleteSolver.answers hsquare hheight hdet'
  have hsolved : solveColumn B (b.toList.map fun x => -x) = .ok (x.column 0) := by
    rw [solveColumn, Model.solveSystem_eq_ok.2 ⟨hsquare, hheight, hx⟩]
    rfl
  have hrows : x.rows = frame.unknowns.size := (hxrows.trans hheight.symm).trans hB.rows
  refine Action.yields_ofOutcome_bind ((Outcome.mapError_eq_ok _ _ _).2
    ((Outcome.ofExcept_eq_ok _ _).2 hsolved)) (Action.yields_pure ⟨rfl, ?_, fun i hi => ?_⟩)
  · simp [DenseMatrix.column, hrows]
  · have hentry := ExactSolver.solves hsquare hheight hx i (hi.trans_eq hB.rows.symm) 0 Nat.one_pos
    rw [hB.rows, DenseMatrix.ofColumn, DenseMatrix.entry_tabulate _ (hi.trans_eq hlength.symm)
      Nat.one_pos] at hentry
    refine Eq.trans (Finset.sum_congr rfl fun j hj => ?_) (hentry.trans ?_)
    · have hj := Finset.mem_range.1 hj
      rw [hB.entry i hi j hj]
      simp [DenseMatrix.column, hrows, hj]
    · simp [List.getD_eq_getElem?_getD, hsize, hi]

omit [DirectSolver R] [CompleteSolver R] in
/-- The matrix of a step, with the entries by the places of the unknowns. -/
theorem det_ne_zero_of_gain {F : Flow R} (h : (1 - Matrix.of fun i j : Fin frame.unknowns.size =>
      F.gain (frame.unknowns.start + i) (frame.unknowns.start + j)).det ≠ 0) :
    (Matrix.of fun i j : Fin frame.unknowns.size =>
      (if frame.unknowns.start + (i : Nat) = frame.unknowns.start + j then 1 else 0) -
        F.gain (frame.unknowns.start + i) (frame.unknowns.start + j)).det ≠ 0 := by
  convert h using 2
  ext i j
  simp [Matrix.one_apply, Fin.ext_iff]

omit [DirectSolver R] [CompleteSolver R] in
/-- A correction for the places of the unknowns, as one for the unknowns. -/
theorem sub_sum_eq {F : Flow R} {a d : Array R} {lane : Mode}
    (ha : ∀ i < frame.unknowns.size, (a[i]?).getD 0 =
      s.outputs.entry lane (frame.unknowns.start + i) -
        u.outputs.entry lane (frame.unknowns.start + i))
    (hd : ∀ i < frame.unknowns.size, ∑ j ∈ Finset.range frame.unknowns.size,
        ((if frame.unknowns.start + i = frame.unknowns.start + j then 1 else 0) -
          F.gain (frame.unknowns.start + i) (frame.unknowns.start + j)) * (d[j]?).getD 0 =
        -(a[i]?).getD 0) {r : Nat} (hr : frame.unknowns.contains r = true) :
    (d[r - frame.unknowns.start]?).getD 0 -
        ∑ q ∈ Finset.Ico frame.unknowns.start frame.unknowns.stop,
          F.gain r q * (d[q - frame.unknowns.start]?).getD 0 =
      u.outputs.entry lane r - s.outputs.entry lane r := by
  rw [Span.contains_iff, Span.stop] at hr
  have hlt : r - frame.unknowns.start < frame.unknowns.size := by omega
  have hrow := hd _ hlt
  rw [ha _ hlt, Nat.add_sub_cancel' hr.1, neg_sub] at hrow
  rw [← hrow, Span.stop, Finset.sum_Ico_eq_sum_range, Nat.add_sub_cancel_left]
  simp only [sub_mul, ite_mul, one_mul, zero_mul, Finset.sum_sub_distrib, Nat.add_sub_cancel_left]
  congr 1
  rw [Finset.sum_eq_single (r - frame.unknowns.start), if_pos (Nat.add_sub_cancel' hr.1).symm]
  · exact fun j _ hne => if_neg fun h => hne (by omega)
  · exact fun hnot => absurd (Finset.mem_range.2 hlt) hnot

/-- **A Newton step** moves the unknowns by a solution of the system of the residual, in each part
that the arithmetic carries. -/
theorem Over.yields_advance (hframe : frame.Over m) (hm : m.Laid)
    (hmembers : ∀ k ∈ frame.components, ∀ c, m.components[k]? = some c →
      c.Solvable (laws k) m.complex (m.isComplexIn frame.mode) ∧ c.Arranged)
    (hdet : (1 - Matrix.of fun i j : Fin frame.unknowns.size =>
      (m.flow laws).gain (frame.unknowns.start + i) (frame.unknowns.start + j)).det ≠ 0)
    (ht : m.Formed t) (hkept : m.MaintainedAt frame.components t)
    (hswept : m.Swept laws frame.scope (m.isComplexIn frame.mode) frame.components s u)
    (hr : frame.Compares (m.isComplexIn frame.mode) r s u) (hinputs : t.inputs = u.inputs) :
    Action.Yields (fun _ v => m.Formed v ∧ m.MaintainedAt frame.components v ∧ v.inputs = t.inputs ∧
        ∃ d : Mode → Nat → R, (∀ lane q, v.outputs.entry lane q = t.outputs.entry lane q +
            if (lane = .complex → m.isComplexIn frame.mode = true) ∧ frame.unknowns.contains q
              then d lane q else 0) ∧
          ∀ lane, (lane = .complex → m.isComplexIn frame.mode = true) → ∀ i,
            frame.unknowns.contains i = true → d lane i -
              ∑ q ∈ Finset.Ico frame.unknowns.start frame.unknowns.stop,
                (m.flow laws).gain i q * d lane q =
                  u.outputs.entry lane i - s.outputs.entry lane i)
      ((frame.advance m r).perform t) := by
  have hU := hframe.inside
  have hlaw (k : Nat) (hk : k ∈ frame.components) (c : ModelComponent R M)
      (hc : m.components[k]? = some c) : c.Follows (laws k) (t.inputs.readReal c.inputs)
        ((⟨c.outputs.start - frame.unknowns.start, c.outputs.size⟩ : Span).slice r.computed) := by
    rw [hinputs, hr.computed]
    exact hframe.follows_of_swept hswept hk hc
  have hdet := det_ne_zero_of_gain hdet
  obtain ⟨re, hre, hresize, hreentries⟩ := hr.part .real fun h => by cases h
  obtain rfl := Option.some.inj hre
  unfold advance
  refine Action.yields_bind (hframe.yields_jacobian hm hmembers ht hkept hr.size hlaw)
    fun B w hw => ?_
  obtain ⟨hwinputs, hwoutputs, hw, hwkept, hB⟩ := hw
  refine Action.yields_bind (yields_correction hB hdet hresize) fun d w' hd => ?_
  obtain ⟨rfl, hdsize, hd⟩ := hd
  refine Action.yields_modify_bind ?_
  have hformed : (w'.outputs.writeReal frame.unknowns (Array.zipWith (· + ·)
      (w'.outputs.readReal frame.unknowns) d)).HasLength m.outputLength m.complex :=
    hw.outputs.congr (Span.size_overwrite _ _ _) rfl
  cases him : r.im with
  | none =>
    have hreal : m.isComplexIn frame.mode = false := by
      by_contra hcomplex
      obtain ⟨im, hsome, -⟩ := hr.part .complex fun _ => by simpa using hcomplex
      cases him.symm.trans hsome
    refine Action.yields_pure ⟨⟨hw.inputs, hformed, hw.components⟩, hwkept, hwinputs,
      fun _ q => (d[q - frame.unknowns.start]?).getD 0, fun lane q => ?_, fun lane hlane => ?_⟩
    · rw [hw.outputs.entry_addReal hU hdsize, hwoutputs, hreal]
      cases lane <;> simp
    · cases lane with
      | real => exact fun i hi => sub_sum_eq hreentries hd hi
      | complex => cases hreal.symm.trans (hlane rfl)
  | some im =>
    have hcomplex : m.isComplexIn frame.mode = true := by
      by_contra hreal
      cases him.symm.trans (hr.real (by simpa using hreal))
    obtain ⟨im', him', himsize, himentries⟩ := hr.part .complex fun _ => hcomplex
    obtain rfl := Option.some.inj (him.symm.trans him')
    refine Action.yields_bind (yields_correction hB hdet himsize) fun e w hw' => ?_
    obtain ⟨rfl, hesize, he⟩ := hw'
    have hstored := Model.complex_of_isComplexIn hcomplex
    refine Action.yields_modify ⟨⟨hw.inputs, hformed.congr rfl (StateVector.map_size_writeImag _ _ _),
      hw.components⟩, hwkept, hwinputs,
      fun lane q => ((if lane = .real then d else e)[q - frame.unknowns.start]?).getD 0,
      fun lane q => ?_, fun lane _ => ?_⟩
    · rw [hstored] at hformed
      rw [hformed.entry_addImag hU hesize, hw.outputs.entry_addReal hU hdsize, hwoutputs, hcomplex]
      cases lane <;> simp
    · cases lane with
      | real => exact fun i hi => sub_sum_eq hreentries hd hi
      | complex => exact fun i hi => sub_sum_eq himentries he hi

end Step

section Iterate

variable {m : Model R M} {frame : NewtonFrame R} {laws : Nat → AffineLaw R} {s t u : ModelState R M}
  {r : Residual R}

/-- Squares of zeros sum up to zero. -/
theorem sumSquares_eq_zero {a : Array R} (h : ∀ x ∈ a, x = 0) : Residual.sumSquares a = 0 := by
  have hzeros : ∀ x ∈ a.toList.map fun x => x * x, x = 0 := by
    intro y hy
    obtain ⟨x, hx, rfl⟩ := List.mem_map.1 hy
    rw [h x (Array.mem_toList_iff.1 hx), mul_zero]
  unfold Residual.sumSquares Scalar.sum
  generalize a.toList.map (fun x => x * x) = xs at hzeros
  rw [neg_zero]
  induction xs with
  | nil => rfl
  | cons x rest ih =>
    obtain ⟨rfl, hrest⟩ := List.forall_mem_cons.1 hzeros
    rw [List.foldl_cons, add_zero]
    exact ih hrest

/-- **A residual of outputs that members find again is small.** -/
theorem Compares.isSmall {complex : Bool} (hr : frame.Compares complex r s u)
    (hsqrt : Scalar.sqrt (0 : R) = 0) (habsolute : 0 ≤ frame.settings.absolute)
    (h : ∀ lane i, frame.unknowns.contains i = true → u.outputs.entry lane i = s.outputs.entry lane i)
    (first : R) : frame.isSmall first (r.norm frame.step) = true := by
  have hzero (lane : Mode) (hlane : lane = .complex → complex = true) {a : Array R}
      (ha : r.part lane = some a) : ∀ x ∈ a, x = 0 := by
    obtain ⟨a', ha', hsize, hentries⟩ := hr.part lane hlane
    obtain rfl := Option.some.inj (ha.symm.trans ha')
    intro x hx
    obtain ⟨i, hi, rfl⟩ := Array.mem_iff_getElem.1 hx
    have hentry := hentries i (hsize ▸ hi)
    rwa [Array.getElem?_eq_getElem hi, Option.getD_some, h lane _ (Span.contains_iff.2
      ⟨Nat.le_add_right _ _, Nat.add_lt_add_left (hsize ▸ hi) _⟩), sub_self] at hentry
  have hnorm : r.norm frame.step = 0 := by
    have hre := sumSquares_eq_zero (hzero .real (fun h => by cases h) rfl)
    unfold Residual.norm
    rw [hre]
    cases him : r.im with
    | none => simp [hsqrt]
    | some im =>
      cases frame.step with
      | none => simp [hsqrt]
      | some step =>
        have hcomplex : complex = true := by
          by_contra hreal
          cases him.symm.trans (hr.real (by simpa using hreal))
        have himag : Residual.sumSquares (im.map fun x => x / step) = 0 := by
          refine sumSquares_eq_zero fun y hy => ?_
          obtain ⟨x, hx, rfl⟩ := Array.mem_map.1 hy
          rw [hzero .complex (fun _ => hcomplex) him x hx, zero_div]
        simp [himag, hsqrt]
  rw [NewtonFrame.isSmall, hnorm, decide_eq_true habsolute, Bool.true_or]

/-- What a residual and a final write of the outputs that were computed leave of the entries. -/
theorem Over.entry_of_exit (hframe : frame.Over m) {complex : Bool} (ht : m.Formed t)
    (hr : frame.Compares complex r s u) (lane : Mode) (q : Nat) :
    (t.outputs.writeReal frame.unknowns r.computed).entry lane q =
      if lane = .real ∧ frame.unknowns.contains q then u.outputs.entry lane q
      else t.outputs.entry lane q := by
  rw [ht.outputs.entry_writeReal hframe.inside hr.size]
  split
  · rename_i hq
    obtain ⟨rfl, hq⟩ := hq
    rw [hr.computed, StateVector.readReal, Span.getElem?_slice_of_contains hq]
    rfl
  · rfl

variable [DirectSolver R]

/-- **An iteration ends where the members find what they compute.** The outputs stay as they are. -/
theorem Over.yields_iterate_of_landed (hframe : frame.Over m) (hm : m.Laid)
    (hsolvable : m.SolvableAt laws frame.mode frame.components) (hsqrt : Scalar.sqrt (0 : R) = 0)
    (habsolute : 0 ≤ frame.settings.absolute) (hs : m.Formed s)
    (hkept : m.MaintainedAt frame.components s)
    (hlands : ∀ u, m.Swept laws frame.scope (m.isComplexIn frame.mode) frame.components s u →
      ∀ lane i, frame.unknowns.contains i = true → u.outputs.entry lane i = s.outputs.entry lane i)
    (first : Option R) (remaining : Nat) :
    Action.Yields (fun result t => result.converged = true ∧
        result.iterations = frame.settings.iterations - remaining ∧ m.Formed t ∧
        (∀ lane q, t.outputs.entry lane q = s.outputs.entry lane q) ∧
        ∃ u, m.Swept laws frame.scope (m.isComplexIn frame.mode) frame.components s u ∧
          t.inputs = u.inputs)
      ((frame.iterate m first remaining).perform s) := by
  unfold iterate
  refine Action.yields_bind (hframe.yields_residual hm hsolvable hs hkept) fun r t ht => ?_
  obtain ⟨ht, -, u, hswept, hr, hinputs, hentries⟩ := ht
  have hlanded := hlands u hswept
  dsimp only
  rw [if_pos (hr.isSmall hsqrt habsolute hlanded _)]
  refine Action.yields_modify_bind (Action.yields_pure ⟨hr.isSmall hsqrt habsolute hlanded _, rfl,
    ⟨ht.inputs, ht.outputs.congr (Span.size_overwrite _ _ _) rfl, ht.components⟩,
    fun lane q => ?_, u, hswept, hinputs⟩)
  rw [hframe.entry_of_exit ht hr, hentries]
  by_cases hq : frame.unknowns.contains q = true
  swap
  · simp [hq]
  cases lane with
  | real => simp [hq, hlanded .real q hq]
  | complex =>
    cases hcomplex : m.isComplexIn frame.mode with
    | true => simp
    | false =>
      simp [hq, ← hlanded .complex q hq, hframe.vanished hm (hcomplex ▸ hswept) hq]

/-- How an iteration on affine members ends: after one step at most, with nothing else changed, and
after a step with members that find what they compute, on inputs that hold what they read. -/
structure Landed (frame : NewtonFrame R) (m : Model R M) (laws : Nat → AffineLaw R)
    (result : NewtonResult R) (s t : ModelState R M) : Prop where
  formed : m.Formed t
  converged : result.converged = true
  iterations : result.iterations ≤ 1
  outputs : ∀ lane q, ¬ frame.unknowns.contains q = true →
    t.outputs.entry lane q = s.outputs.entry lane q
  inputs : ∀ lane p, (¬ ∃ k ∈ frame.components, m.ownerOf? .input p = some k) →
    t.inputs.entry lane p = s.inputs.entry lane p
  fixed : result.iterations = 1 → ∀ k ∈ frame.components, ∀ c, m.components[k]? = some c →
    c.Ran (laws k) (m.isComplexIn frame.mode) t.inputs t.outputs t.outputs
  fed : result.iterations = 1 → ∀ lane p, (∃ k ∈ frame.components, m.ownerOf? .input p = some k) →
    ∀ q, m.wire p = some q → m.inScope frame.scope q = true →
      t.inputs.entry lane p = t.outputs.entry lane q

/-- **Newton's method lands on affine members** in one step. -/
theorem Over.yields_iterate [CompleteSolver R] (hframe : frame.Over m) (hm : m.Laid)
    (hmembers : ∀ k ∈ frame.components, ∀ c, m.components[k]? = some c →
      c.Solvable (laws k) m.complex (m.isComplexIn frame.mode) ∧ c.Arranged)
    (hdet : (1 - Matrix.of fun i j : Fin frame.unknowns.size =>
      (m.flow laws).gain (frame.unknowns.start + i) (frame.unknowns.start + j)).det ≠ 0)
    (hsqrt : Scalar.sqrt (0 : R) = 0) (habsolute : 0 ≤ frame.settings.absolute)
    (hiterations : 1 ≤ frame.settings.iterations) (hs : m.Formed s)
    (hkept : m.MaintainedAt frame.components s) :
    Action.Yields (fun result t => frame.Landed m laws result s t)
      ((frame.iterate m none frame.settings.iterations).perform s) := by
  have hsolvable : m.SolvableAt laws frame.mode frame.components := fun k hk =>
    (hframe.there k hk).imp fun c hc => ⟨hc, (hmembers k hk c hc).1⟩
  obtain ⟨n, hn⟩ : ∃ n, frame.settings.iterations = n + 1 := Nat.exists_eq_add_of_le' hiterations
  unfold iterate
  rw [hn]
  refine Action.yields_bind (hframe.yields_residual hm hsolvable hs hkept) fun r t ht => ?_
  obtain ⟨ht, htkept, u, hswept, hr, hinputs, hentries⟩ := ht
  dsimp only
  split
  · rename_i hsmall
    have hnone : n + 1 - (n + 1) = 0 := Nat.sub_self _
    refine Action.yields_modify_bind (Action.yields_pure ⟨⟨ht.inputs,
      ht.outputs.congr (Span.size_overwrite _ _ _) rfl, ht.components⟩, hsmall,
      hnone.le.trans zero_le_one, fun lane q hq => ?_, fun lane p hp => ?_, fun hone => ?_,
      fun hone => ?_⟩)
    · rw [hframe.entry_of_exit ht hr, hentries, if_neg fun h => hq h.2, if_neg fun h => hq h.1]
    · rw [hinputs, hswept.inputs, if_neg hp]
    · exact absurd (hnone.symm.trans hone) Nat.zero_ne_one
    · exact absurd (hnone.symm.trans hone) Nat.zero_ne_one
  · refine Action.yields_bind (hframe.yields_advance hm hmembers hdet ht htkept hswept hr hinputs)
      fun _ v hv => ?_
    obtain ⟨hv, hvkept, hvinputs, d, hmoved, hsolves⟩ := hv
    have hlands (w : ModelState R M) (hw : m.Swept laws frame.scope (m.isComplexIn frame.mode)
        frame.components v w) (lane : Mode) (i : Nat) (hi : frame.unknowns.contains i = true) :
        w.outputs.entry lane i = v.outputs.entry lane i := by
      refine hswept.lands hm hframe.scope (fun r => hframe.unknown_iff hm) hw (hvinputs.trans hinputs)
        (fun lane hlane q => ?_) (fun hreal q hq => ?_) hsolves hi
      · have hkept : ¬ (frame.unknowns.contains q = true ∧ lane = .complex ∧
            m.isComplexIn frame.mode = false) := fun h => by cases h.2.2.symm.trans (hlane h.2.1)
        rw [hmoved, hentries, if_neg hkept]
        exact congrArg (_ + ·) (if_congr (and_iff_right hlane) rfl rfl)
      · rw [hmoved, hentries, if_pos ⟨hq, rfl, hreal⟩, if_neg, add_zero]
        exact fun h => by cases hreal.symm.trans (h.1 rfl)
    refine (hframe.yields_iterate_of_landed hm hsolvable hsqrt habsolute hv hvkept hlands _ n).mono
      fun result t' ht' => ?_
    obtain ⟨hconverged, hcount, ht', houtputs, w, hw, hwinputs⟩ := ht'
    refine ⟨ht', hconverged, by omega, fun lane q hq => ?_, fun lane p hp => ?_,
      fun _ k hk c hc => ?_, fun _ lane p hp q hq hscope => ?_⟩
    · rw [houtputs, hmoved, hentries, if_neg fun h => hq h.1, if_neg fun h => hq h.2, add_zero]
    · rw [hwinputs, hw.inputs, if_neg hp, hvinputs, hinputs, hswept.inputs, if_neg hp]
    · rw [hwinputs]
      refine (hw.ran k hk c hc).congr (fun lane r _ => houtputs lane r) fun lane r hr => ?_
      have hunknown := (hframe.unknown_iff hm).2 ⟨k, hk, (hm.owner_output_iff hc).2 hr⟩
      rw [houtputs, hlands w hw lane r hunknown]
    · rw [hwinputs, hw.inputs, if_pos hp, Model.pulled, hq, Option.filter_some, if_pos hscope,
        houtputs]

end Iterate

end NewtonFrame

namespace ModelComponent

variable {c : ModelComponent R M} {law : AffineLaw R} {complex : Bool}
  {inputs before after after' : StateVector R}

/-- What a run leaves is determined by the inputs and by what was there. -/
theorem Ran.entry_eq (h : c.Ran law complex inputs before after)
    (h' : c.Ran law complex inputs before after') (lane : Mode) {r : Nat}
    (hr : c.outputs.contains r = true) : after'.entry lane r = after.entry lane r := by
  by_cases hlane : lane = .complex → complex = true
  · by_cases hobeys : c.component.Obeys law
    · rw [h.computed hobeys lane hlane r hr, h'.computed hobeys lane hlane r hr]
    · rw [h.held hobeys lane hlane r hr, h'.held hobeys lane hlane r hr]
  · obtain ⟨rfl, hreal⟩ := Classical.not_imp.1 hlane
    have hreal : complex = false := by simpa using hreal
    rw [h.vanished hreal r hr, h'.vanished hreal r hr]

end ModelComponent

namespace Model

variable {m : Model R M} {laws : Nat → AffineLaw R} {mode : Mode} {s t : ModelState R M} {k : Nat}
  {c : ModelComponent R M}

/-- A component that would leave its outputs as they are computes them again. -/
theorem Laid.recomputes_of_ran (hm : m.Laid) (hc : m.components[k]? = some c)
    (hsolvable : c.Solvable (laws k) m.complex (m.isComplexIn mode)) (ht : m.Formed t)
    (h : c.Ran (laws k) (m.isComplexIn mode) t.inputs t.outputs t.outputs) :
    m.Recomputes mode t c t.outputs := by
  intro memory
  obtain ⟨μ, v, heval, hran, hbeside⟩ := hm.exists_evaluate hc hsolvable ht memory
  obtain ⟨hsize, himag⟩ := Component.lengths_evaluate c.component t.inputs t.outputs c.inputs
    c.outputs (m.isComplexIn mode) memory
  rw [heval] at hsize himag
  have hsame : v = t.outputs := by
    refine (ht.outputs.congr hsize himag).ext ht.outputs fun lane i => ?_
    cases hi : c.outputs.contains i with
    | true => exact h.entry_eq hran lane hi
    | false => exact hbeside lane i hi
  exact ⟨μ, hsame ▸ heval⟩

section Newton

variable {g : Group R M} {settings : SetupSettings} {x : ModelGroup R} {body : Schedule R}
  {options : NewtonSettings R} {scope u : Span}

/-- **A Newton group iterates on its members**, whose outputs are the unknowns. -/
theorem over_of_ofGroup (h : ofGroup g settings = .ok m) (hx : (x, body) ∈ m.groups)
    (hsize : x.components.size ≠ 0) (hu : m.outputsOf x = some u)
    (hscope : ∀ k ∈ x.members, scope.contains k = true) (step : Option R) :
    NewtonFrame.Over m ⟨options, x.label, x.members, u, mode, scope, step⟩ := by
  have hlaid := laid_of_ofGroup h
  have hm := consistent_of_ofGroup h
  obtain ⟨outer, hinside, -, houter⟩ := (hm.groups _ hx).outputs
  obtain rfl := Option.some.inj (hu.symm.trans (houter hsize))
  have hthere (k : Nat) (hk : k ∈ x.members) : ∃ c, m.components[k]? = some c := by
    have hspan := hu
    simp only [outputsOf, Option.bind_eq_bind, Option.bind_eq_some_iff] at hspan
    obtain ⟨first, hfirst, last, hlast, -⟩ := hspan
    have hlt := (List.getElem?_eq_some_iff.1 hlast).1
    have hk := Span.contains_iff.1 (mem_members_iff.1 hk)
    exact ⟨_, List.getElem?_eq_getElem (by omega)⟩
  refine ⟨List.nodup_range', hthere, fun k hk c hc => hm.within_outputsOf hu hk hc, fun r hr => ?_,
    hscope, hinside⟩
  obtain ⟨k, hk, hin⟩ := List.any_eq_true.1
    (hm.inGroup_of_outputsOf hlaid hx (fun _ hk => hk) hsize hu hr)
  obtain ⟨c, hc, hin⟩ := (Option.any_eq_true _ _).1 hin
  exact ⟨k, hk, (hlaid.owner_output_iff hc).2 hin⟩

omit [ExactScalar R] in
/-- What belongs to no member is outside the group. -/
theorem Laid.not_owned_of_inGroup (hm : m.Laid) {kind : VariableKind} {i : Nat}
    (h : m.inGroup x kind i = false) : ¬ ∃ k ∈ x.members, m.ownerOf? kind i = some k := by
  rintro ⟨k, hk, howner⟩
  obtain ⟨c, hc, hin⟩ := hm.exists_component howner
  rw [inGroup_of_contains hk hc hin] at h
  cases h

/-- **Newton's method solves affine coupling in one step.** Let the members of a group be affine, with
every dependency declared as a dense block that they fill in or that is approximated with valid
settings, and let `1 - gain` be nonsingular over the outputs of the group. In exact arithmetic, with a
solver that is exact, an iteration from any state of the model then converges after one step at most.
It changes no values but those of the members. If it takes a step, each member finds its outputs again
when it is run on its inputs, and each input that reads an output in scope holds what that output
holds, both in real and in imaginary parts. -/
theorem newton_affine [DirectSolver R] [CompleteSolver R] (hbuild : ofGroup g settings = .ok m)
    (hx : (x, body) ∈ m.groups) (hscope : ∀ k ∈ x.members, scope.contains k = true)
    (hmembers : m.SolvableAt laws mode x.members)
    (hdet : ∀ u, m.outputsOf x = some u → (1 - Matrix.of fun i j : Fin u.size =>
      (m.flow laws).gain (u.start + i) (u.start + j)).det ≠ 0)
    (hsqrt : Scalar.sqrt (0 : R) = 0) (habsolute : 0 ≤ options.absolute)
    (hiterations : 1 ≤ options.iterations) (hs : m.Formed s) (hkept : m.Upkept s) :
    ∃ result t, (m.newton x options mode scope).perform s = (.ok result, t) ∧
      result.converged = true ∧ result.iterations ≤ 1 ∧
      (∀ lane q, m.inGroup x .output q = false →
        t.outputs.entry lane q = s.outputs.entry lane q) ∧
      (∀ lane p, m.inGroup x .input p = false → t.inputs.entry lane p = s.inputs.entry lane p) ∧
      (result.iterations = 1 →
        (∀ k ∈ x.members, ∃ c, m.components[k]? = some c ∧ m.Recomputes mode t c t.outputs) ∧
        ∀ lane p q, m.inGroup x .input p = true → m.wire p = some q → m.inScope scope q = true →
          t.inputs.entry lane p = t.outputs.entry lane q) := by
  have hlaid := laid_of_ofGroup hbuild
  unfold newton
  by_cases hsize : x.components.size = 0
  · rw [if_pos hsize]
    exact ⟨_, s, rfl, rfl, Nat.zero_le _, fun _ _ _ => rfl, fun _ _ _ => rfl, nofun⟩
  rw [if_neg hsize]
  obtain ⟨u, -, -, hu⟩ := ((consistent_of_ofGroup hbuild).groups _ hx).outputs
  replace hu := hu hsize
  have harranged (k : Nat) (hk : k ∈ x.members) (c : ModelComponent R M)
      (hc : m.components[k]? = some c) :
      c.Solvable (laws k) m.complex (m.isComplexIn mode) ∧ c.Arranged := by
    obtain ⟨c', hc', hsolvable⟩ := hmembers k hk
    obtain rfl := Option.some.inj (hc.symm.trans hc')
    exact ⟨hsolvable, arranged_of_ofGroup hbuild hc⟩
  have hmaintained : m.MaintainedAt x.members s := fun k _ c hc => by
    have hlt : k < s.components.length := hs.components ▸ (List.getElem?_eq_some_iff.1 hc).1
    exact ⟨_, List.getElem?_eq_getElem hlt, hkept.kept hc (List.getElem?_eq_getElem hlt)⟩
  obtain ⟨step, hstep⟩ : ∃ step, step = if m.isComplexIn mode then
      s.stack.current?.map Activation.step else none := ⟨_, rfl⟩
  have hframe : NewtonFrame.Over m ⟨options, x.label, x.members, u, mode, scope, step⟩ :=
    over_of_ofGroup hbuild hx hsize hu hscope step
  obtain ⟨result, t, hperform, hlanded⟩ := hframe.yields_iterate hlaid harranged (hdet u hu) hsqrt
    habsolute hiterations hs hmaintained
  refine ⟨result, t, ?_, hlanded.converged, hlanded.iterations, fun lane q hq => ?_,
    fun lane p hp => hlanded.inputs lane p (hlaid.not_owned_of_inGroup hp), fun hone =>
      ⟨fun k hk => ?_, fun lane p q hp hq hqscope => ?_⟩⟩
  · have hsolve : (NewtonFrame.solve m
        ⟨options, x.label, x.members, u, mode, scope, step⟩).perform s = (.ok result, t) := by
      unfold NewtonFrame.solve
      rw [Action.perform_bind, hperform]
      dsimp only
      rw [if_pos hlanded.converged]
      rfl
    rw [hu, Action.perform_bind, Action.perform_ofOutcome, Outcome.ofOption]
    dsimp only
    rw [Action.perform_get_bind, ← hstep]
    exact hsolve
  · refine hlanded.outputs lane q fun hin => hlaid.not_owned_of_inGroup hq ?_
    exact hframe.owned q hin
  · obtain ⟨c, hc, hsolvable⟩ := hmembers k hk
    exact ⟨c, hc, hlaid.recomputes_of_ran hc hsolvable hlanded.formed (hlanded.fixed hone k hk c hc)⟩
  · refine hlanded.fed hone lane p ?_ q hq hqscope
    obtain ⟨k, hk, hin⟩ := List.any_eq_true.1 hp
    obtain ⟨c, hc, hin⟩ := (Option.any_eq_true _ _).1 hin
    exact ⟨k, hk, (hlaid.owner_input_iff hc).2 hin⟩

end Newton

end Model

/-- What a law says of complex inputs. -/
def AffineLaw.complexEntry (law : AffineLaw R) (x : Array (ComplexNumber R)) (r : Nat) :
    ComplexNumber R where
  re := law.offset r +
    ∑ j ∈ Finset.range x.size, law.slope r j * (x[j]?.map ComplexNumber.re).getD 0
  im := law.offsetIn .complex r +
    ∑ j ∈ Finset.range x.size, law.slope r j * (x[j]?.map ComplexNumber.im).getD 0

/-- The component that computes what a law says, and leaves its partials to an approximation. -/
def AffineLaw.component (law : AffineLaw R) (inputs outputs : List (String × VariableSpec R))
    (own : Settings R) : Component R Unit where
  declarations := .ofExcept do
    let d ← inputs.foldlM (fun d v => d.addVariable .input v.1 v.2) (∅ : Declarations R)
    let d ← outputs.foldlM (fun d v => d.addVariable .output v.1 v.2) d
    d.addPartials .all .all (.approximated own)
  memory := ()
  computeReal x y := pure <| .ofFn fun r : Fin y.size =>
    law.offset r + ∑ j ∈ Finset.range x.size, law.slope r j * (x[j]?.map id).getD 0
  computeComplex x y := pure <| .ofFn fun r : Fin y.size => law.complexEntry x r
  computePartials _ := pure ()
  complexSafe := true

/-- A computation of each entry by a law follows the law. -/
theorem Action.reproduces_ofFn {M α ε : Type} {part : α → R} {offset : Nat → R}
    {slope : Nat → Nat → R} (f : Array α → Nat → α) (h : ∀ x r, part (f x r) =
      offset r + ∑ j ∈ Finset.range x.size, slope r j * (x[j]?.map part).getD 0) :
    Reproduces (fun x (y : Array α) => (pure (.ofFn fun r : Fin y.size => f x r) : Action M ε _))
      part offset slope := by
  intro x y z μ ν hz
  cases hz
  refine ⟨Array.size_ofFn, fun r hr => ?_⟩
  rw [Array.getElem?_eq_getElem hr, Array.getElem_ofFn]
  exact h x r

namespace AffineLaw

variable (law : AffineLaw R) (inputs outputs : List (String × VariableSpec R)) (own : Settings R)

theorem obeys_component : (law.component inputs outputs own).Obeys law where
  real := Action.reproduces_ofFn (fun x r =>
    law.offset r + ∑ j ∈ Finset.range x.size, law.slope r j * (x[j]?.map id).getD 0) fun _ _ => rfl
  complex _ := Action.reproduces_ofFn (law.complexEntry) fun _ _ => rfl

theorem reproduces_component : Action.Reproduces (law.component inputs outputs own).computeComplex
    ComplexNumber.re law.offset law.slope :=
  Action.reproduces_ofFn law.complexEntry fun _ _ => rfl

end AffineLaw

variable {law : AffineLaw R} {inputs outputs : List (String × VariableSpec R)} {own : Settings R}
  {c : ModelComponent R Unit} {stored complex : Bool}

/-- **A solver can work with the component of a law**, if it declares all partials, as dense blocks to
be approximated with valid settings. -/
theorem ModelComponent.solvable_of_law (h : c.component = law.component inputs outputs own)
    (happroximated : ∀ p ∈ c.partials, p.provision.pattern = none ∧
      ∃ chosen, p.provision.approximation = some chosen ∧ chosen.validate = .ok ())
    (hdeclared : ∀ of ∈ c.layout.outputs.keys, ∀ wrt ∈ c.layout.inputs.keys,
      (of, wrt) ∈ c.partials.map fun p => (p.of, p.wrt)) : c.Solvable law stored complex := by
  refine ⟨⟨?stateless, .inr ?obeys, fun p hp => (happroximated p hp).1, ?declared, ?computed⟩,
    ?capable, ⟨?evaluates, ?writes, ?answers, ?valid⟩⟩
  case stateless => exact h ▸ ⟨fun _ _ _ _ => rfl, fun _ _ _ _ => rfl⟩
  case obeys => exact h ▸ law.obeys_component inputs outputs own
  case declared =>
    intro of _ wrt _ hof hwrt hout
    have hkeys := hdeclared of (List.mem_map_of_mem ((Table.get?_eq_some_iff _ _ _).1 hof)) wrt
      (List.mem_map_of_mem ((Table.get?_eq_some_iff _ _ _).1 hwrt))
    exact absurd hkeys hout
  case computed =>
    intro p hp hnone
    obtain ⟨-, chosen, hchosen, -⟩ := happroximated p hp
    rw [hchosen] at hnone
    cases hnone
  case capable => exact fun _ => h ▸ ⟨rfl, fun _ => law.reproduces_component inputs outputs own⟩
  case evaluates => exact h ▸ ⟨fun _ _ _ _ _ => ⟨_, _, rfl⟩, fun _ _ _ _ _ _ => ⟨_, _, rfl⟩⟩
  case writes => exact fun _ _ _ _ => h ▸ ⟨[], rfl⟩
  case answers => exact fun _ _ _ _ _ => by rw [h]; rfl
  case valid =>
    intro p hp own hown
    obtain ⟨-, chosen, hchosen, hvalid⟩ := happroximated p hp
    exact Option.some.inj (hown.symm.trans hchosen) ▸ hvalid

/-- A component declares all its partials, as dense blocks to be approximated with valid settings. -/
def ModelComponent.Covered (c : ModelComponent R Unit) : Prop :=
  (∀ p ∈ c.partials, p.provision.pattern = none ∧
    p.provision.approximation.map (·.validate.toOption) = some (some ())) ∧
  ∀ of ∈ c.layout.outputs.keys, ∀ wrt ∈ c.layout.inputs.keys,
    (of, wrt) ∈ c.partials.map fun p => (p.of, p.wrt)

instance (c : ModelComponent R Unit) : Decidable c.Covered :=
  inferInstanceAs (Decidable (_ ∧ _))

namespace Model

/-- **A solver can work with the components of laws** in a model. -/
theorem exists_solvable {m : Model R Unit} {g : Group R Unit} {settings : SetupSettings} {k : Nat}
    (hbuild : ofGroup g settings = .ok m) (hcovered : ∀ c ∈ m.components, c.Covered)
    (hmember : g.members.components[k]? = some (law.component inputs outputs own)) :
    ∃ c, m.components[k]? = some c ∧ c.Solvable law stored complex := by
  rw [← components_of_ofGroup hbuild, List.getElem?_map] at hmember
  obtain ⟨c, hc, h⟩ := Option.map_eq_some_iff.1 hmember
  obtain ⟨happroximated, hdeclared⟩ := hcovered c (List.mem_of_getElem? hc)
  refine ⟨c, hc, ModelComponent.solvable_of_law h (fun p hp => ?_) hdeclared⟩
  obtain ⟨hdense, hvalid⟩ := happroximated p hp
  obtain ⟨chosen, hchosen, hvalid⟩ := Option.map_eq_some_iff.1 hvalid
  exact ⟨hdense, chosen, hchosen, Except.eq_ok_of_toOption hvalid⟩

section Loop

/-- Cramer's rule. -/
def cramer [DecidableEq R] (a b : DenseMatrix R) : Option (DenseMatrix R) :=
  let A := Matrix.of fun i j : Fin a.rows => a.entry i j
  if A.det = 0 then none
  else some <| .tabulate a.rows b.cols fun r c =>
    if h : r < a.rows then A.cramer (fun i => b.entry i c) ⟨r, h⟩ / A.det else 0

/-- Systems solved by Cramer's rule. -/
abbrev cramerSolver : DirectSolver Rat := ⟨cramer⟩

theorem complete_cramer : letI := cramerSolver; CompleteSolver Rat := by
  let := cramerSolver
  refine @CompleteSolver.mk _ _ _ ⟨fun {a b x} _ _ h r hr c hc => ?_⟩ fun {a b} _ hrows hdet =>
    ⟨_, if_neg hdet, hrows, rfl⟩
  obtain ⟨hdet, h⟩ := Option.ite_none_left_eq_some.1 h
  cases h
  have hcramer := congrFun ((Matrix.of fun i j : Fin a.rows => a.entry i j).mulVec_cramer
    fun i => b.entry i c) ⟨r, hr⟩
  rw [Matrix.mulVec, dotProduct, Pi.smul_apply, smul_eq_mul] at hcramer
  rw [Finset.sum_range, ← mul_div_cancel_left₀ (b.entry r c) hdet, ← hcramer, Finset.sum_div]
  refine Finset.sum_congr rfl fun i _ => ?_
  rw [DenseMatrix.entry_tabulate _ i.2 hc, dif_pos i.2, Matrix.of_apply, mul_div_assoc]

/-- One, and half of the sum of the inputs. -/
def half : AffineLaw Rat := ⟨fun _ => 1, fun _ _ => 1 / 2⟩

/-- A source, and a loop of two components that it feeds, one of them in a group inside it. -/
def loopSystem : Group Rat Unit where
  settings := { GroupSettings.plain with connections := [("source.x", "loop.left.a")] }
  members := .component "source" (.independent () [("x", .scalar 1)]) <|
    .group "loop" { GroupSettings.plain with
        connections := [("inner.right.z", "left.b"), ("left.y", "inner.right.c")]
        solver := .newton .standard }
      (.component "left" (half.component [("a", .scalar 0), ("b", .scalar 0)] [("y", .scalar 0)]
          .finiteDifference) <|
        .group "inner" .plain (.component "right"
          (half.component [("c", .scalar 0)] [("z", .scalar 0)] .complexStep) .empty) .empty) .empty

theorem isSome_loopModel : (ofGroup loopSystem .standard).toOption.isSome = true := by decide +kernel

/-- The model of the loop. -/
def loopModel : Model Rat Unit := (ofGroup loopSystem .standard).toOption.get isSome_loopModel

theorem ofGroup_loopModel : ofGroup loopSystem .standard = .ok loopModel :=
  Except.eq_ok_of_toOption (Option.some_get isSome_loopModel).symm

theorem isSome_loopStart : loopModel.start.toOption.isSome = true := by decide +kernel

/-- The model at the start, with a complex step under way. -/
def loopStart : ModelState Rat Unit :=
  { loopModel.start.toOption.get isSome_loopStart with stack := ⟨[⟨"", 1 / 1000⟩]⟩ }

theorem isSome_loop : (loopModel.groups[1]?).isSome = true := by decide +kernel

/-- The group of the loop. -/
def loop : ModelGroup Rat × Schedule Rat := (loopModel.groups[1]?).get isSome_loop

/-- The laws of the components. -/
def loopLaws (_ : Nat) : AffineLaw Rat := half

theorem mem_loop : loop ∈ loopModel.groups :=
  List.mem_of_getElem? (Option.some_get isSome_loop).symm

theorem covered_loop : ∀ c ∈ loopModel.components, c.Covered := by decide +kernel

theorem solvable_loop : loopModel.SolvableAt loopLaws .complex loop.1.members := by
  have hmembers : loop.1.members = [1, 2] := by decide +kernel
  intro k hk
  rw [hmembers] at hk
  rcases List.mem_cons.1 hk with rfl | hk
  · exact exists_solvable ofGroup_loopModel covered_loop rfl
  · cases List.mem_singleton.1 hk
    exact exists_solvable ofGroup_loopModel covered_loop rfl

theorem nonsingular_loop (u : Span) (hu : loopModel.outputsOf loop.1 = some u) :
    (1 - Matrix.of fun i j : Fin u.size =>
      (loopModel.flow loopLaws).gain (u.start + i) (u.start + j)).det ≠ 0 := by
  have hspan : loopModel.outputsOf loop.1 = some ⟨1, 2⟩ := by decide +kernel
  obtain rfl := Option.some.inj (hspan.symm.trans hu)
  have hinverse : (1 - Matrix.of fun i j : Fin 2 =>
      (loopModel.flow loopLaws).gain (1 + i) (1 + j)) * !![4 / 3, 2 / 3; 2 / 3, 4 / 3] = 1 := by
    decide +kernel
  exact Matrix.det_ne_zero_of_right_inverse hinverse

theorem formed_loop : loopModel.Formed loopStart :=
  ⟨⟨by decide +kernel, by decide +kernel⟩, ⟨by decide +kernel, by decide +kernel⟩, by decide +kernel⟩

theorem upkept_loop : letI := cramerSolver; loopModel.Upkept loopStart := by
  let := cramerSolver
  have hstart : loopModel.start = .ok (loopModel.start.toOption.get isSome_loopStart) :=
    Except.eq_ok_of_toOption (Option.some_get isSome_loopStart).symm
  exact (sound_start hstart).upkept.congr rfl

/-- The run of the loop from the start. -/
def loopRun : Outcome (ModelError Rat) (NewtonResult Rat) × ModelState Rat Unit :=
  letI := cramerSolver
  (loopModel.newton loop.1 .standard .complex ⟨0, 3⟩).perform loopStart

/-- A loop of two that a source feeds is solved by one step, while a complex step is under way. -/
theorem solved_loop : letI := cramerSolver
    loopModel.SolvableAt loopLaws .complex loop.1.members ∧ loopModel.Upkept loopStart ∧
    ∃ result t,
      (loopModel.newton loop.1 .standard .complex ⟨0, 3⟩).perform loopStart = (.ok result, t) ∧
      result.converged = true ∧ result.iterations = 1 ∧
      ∀ k ∈ loop.1.members, ∃ c, loopModel.components[k]? = some c ∧
        loopModel.Recomputes .complex t c t.outputs := by
  let := cramerSolver
  have := complete_cramer
  have hscope : ∀ k ∈ loop.1.members, Span.contains ⟨0, 3⟩ k = true := by decide +kernel
  have habsolute : 0 ≤ (NewtonSettings.standard : NewtonSettings Rat).absolute := by decide +kernel
  obtain ⟨result, t, hperform, hconverged, -, -, -, hone⟩ := newton_affine ofGroup_loopModel
    mem_loop hscope solvable_loop nonsingular_loop (by decide +kernel) habsolute (by decide +kernel)
    formed_loop upkept_loop
  have hiterations : loopRun.1.toOption.map (·.iterations) = some 1 := by decide +kernel
  have hrun : loopRun = (.ok result, t) := hperform
  rw [hrun] at hiterations
  have hiterations : result.iterations = 1 := Option.some.inj hiterations
  exact ⟨solvable_loop, upkept_loop, result, t, hperform, hconverged, hiterations,
    (hone hiterations).1⟩

end Loop

end Model

end Sensitivity
