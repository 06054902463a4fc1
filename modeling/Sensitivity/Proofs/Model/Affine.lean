import Mathlib
import Sensitivity.Proofs.Model.Component
import Sensitivity.Proofs.Model.Entries
import Sensitivity.Proofs.Model.Holding

/-!
# Affine components

The outputs of an affine component are offsets plus slopes times its inputs, and their imaginary
parts are the slopes times the imaginary parts of its inputs (`Component.Obeys`). It declares all
it depends on, and the blocks that it computes itself hold its slopes (`ModelComponent.Affine`).
Independent variables hold what they have.

A model of affine components is an affine system (`Model.flow`). Running a component takes each of
its outputs to what the system says (`Model.Laid.compute_spec`).
-/

namespace Sensitivity

/-- The offsets and slopes of an affine component, by the entries of its outputs and inputs. -/
structure AffineLaw (R : Type) where
  offset : Nat → R
  slope : Nat → Nat → R

/-- What is added to the slopes in real or in complex arithmetic, where imaginary parts are
followed. -/
def AffineLaw.offsetIn {R : Type} [Zero R] (law : AffineLaw R) : Mode → Nat → R
  | .real => law.offset
  | .complex => fun _ => 0

variable {R M : Type} [ExactScalar R]

/-- In one part of its numbers, a computation gives offsets plus slopes times its inputs. -/
def Action.Reproduces {α ε : Type} (f : Array α → Array α → Action M ε (Array α)) (part : α → R)
    (offset : Nat → R) (slope : Nat → Nat → R) : Prop :=
  ∀ {x y z memory memory'}, (f x y).perform memory = (.ok z, memory') → z.size = y.size ∧
    ∀ r < z.size, (z[r]?.map part).getD 0 =
      offset r + ∑ j ∈ Finset.range x.size, slope r j * (x[j]?.map part).getD 0

/-- Outputs are left as they are, imaginary parts included. -/
structure Component.Idle (c : Component R M) : Prop where
  real : c.Holds
  complex : ∀ x y memory, (c.computeComplex x y).perform memory = (.ok y, memory)

theorem Component.idle_independent (memory : M) (outputs : List (String × VariableSpec R)) :
    (independent memory outputs).Idle := ⟨fun _ _ _ => rfl, fun _ _ _ => rfl⟩

/-- Outputs follow a law, in complex arithmetic as far as it carries derivatives. -/
structure Component.Obeys (c : Component R M) (law : AffineLaw R) : Prop where
  real : Action.Reproduces c.computeReal id law.offset law.slope
  complex : c.complexSafe = true →
    Action.Reproduces c.computeComplex ComplexNumber.im (law.offsetIn .complex) law.slope

/-- A dense block holds the slopes between two spans. -/
def AffineLaw.Fills (law : AffineLaw R) (of wrt : Span) (m : DenseMatrix R) : Prop :=
  m.rows = of.size ∧ m.cols = wrt.size ∧ ∀ i < of.size, ∀ j < wrt.size,
    m.get? i j = some (law.slope (of.start + i) (wrt.start + j))

/-- An affine component of a model: it declares all it depends on, in dense blocks, and fills those
that it computes itself with its slopes, whatever blocks it has before. -/
structure ModelComponent.Affine (c : ModelComponent R M) (law : AffineLaw R) : Prop where
  stateless : c.component.Stateless
  lawful : c.component.Idle ∧ (∀ r j, law.slope r j = 0) ∨ c.component.Obeys law
  dense : ∀ p ∈ c.partials, p.provision.pattern = none
  declared : ∀ of own wrt other, c.layout.outputs.get? of = some own →
    c.layout.inputs.get? wrt = some other → (of, wrt) ∉ c.partials.map (fun p => (p.of, p.wrt)) →
      ∀ i < own.size, ∀ j < other.size, law.slope (own.start + i) (other.start + j) = 0
  computed : ∀ p ∈ c.partials, p.provision.approximation = none → ∀ {x memory held memory' held'},
    c.Holds held → (c.component.computePartials x).perform (memory, held) =
      (.ok (), (memory', held')) → ∀ of wrt, c.layout.outputs.get? p.of = some of →
        c.layout.inputs.get? p.wrt = some wrt →
          ∃ m, held'.blocks.get? (p.of, p.wrt) = some (.dense m) ∧ law.Fills of wrt m

section Evaluate

variable {c : Component R M} {mode : Mode} {inputs outputs outputs' : StateVector R}
  {source target : Span} {memory memory' : M}

/-- The imaginary parts that are read are those of the lane. -/
theorem StateVector.map_im_readComplex {v : StateVector R} {s : Span} (hreal : s.stop ≤ v.size)
    (himag : s.stop ≤ (v.lane .complex).size) :
    (v.readComplex s).map ComplexNumber.im = s.slice (v.lane .complex) := by
  have hre : (v.readReal s).size = s.size := Span.size_slice hreal
  refine Array.ext_getElem? fun i => ?_
  cases him : v.imag with
  | none =>
    have hzero : s.size = 0 := by
      simp only [lane, him, Option.getD_none, List.size_toArray, List.length_nil, Span.stop] at himag
      omega
    simp [readComplex, readImag, him, Span.getElem?_slice, hzero]
  | some im =>
    have hsize : (s.slice im).size = s.size := Span.size_slice (by simpa [lane, him] using himag)
    by_cases hi : i < s.size
    · simp [readComplex, readImag, him, lane, hre, hsize, hi]
    · rw [Array.getElem?_eq_none, Array.getElem?_eq_none]
      · simpa [lane, him, hsize] using hi
      · simp only [Array.size_map, readComplex, Array.size_zipWith, hre]
        omega

theorem StateVector.map_re_readComplex {v : StateVector R} {s : Span} (hreal : s.stop ≤ v.size)
    (himag : s.stop ≤ (v.lane .complex).size) :
    (v.readComplex s).map ComplexNumber.re = s.slice (v.lane .real) := by
  have himag := congrArg Array.size (map_im_readComplex hreal himag)
  have hsize : (v.readReal s).size ≤ (v.readImag s).size := by
    rw [Array.size_map, readComplex, Array.size_zipWith] at himag
    have hslice : (s.slice (v.lane .complex)).size = s.size := Span.size_slice ‹_›
    have hre : (v.readReal s).size = s.size := Span.size_slice hreal
    omega
  change _ = v.readReal s
  refine Array.ext (by simp [readComplex, hsize]) fun i hi hi' => ?_
  simp [readComplex]

/-- A computation that follows a law in one part of its numbers gives what the law says of the inputs
that it read. -/
theorem Action.Reproduces.entries {α ε : Type} {f : Array α → Array α → Action M ε (Array α)}
    {part : α → R} {offset : Nat → R} {slope : Nat → Nat → R}
    (hf : Reproduces f part offset slope) {x y z : Array α} {μ ν : M}
    (hz : (f x y).perform μ = (.ok z, ν)) (hx : x.map part = source.slice (inputs.lane mode))
    (hfits : source.stop ≤ (inputs.lane mode).size) : z.size = y.size ∧ ∀ i < y.size,
      ((z.map part)[i]?).getD 0 = offset i +
        ∑ j ∈ Finset.range source.size, slope i j * inputs.entry mode (source.start + j) := by
  obtain ⟨hsize, hentries⟩ := hf hz
  refine ⟨hsize, fun i hi => ?_⟩
  have hlength : x.size = source.size := by
    rw [← Span.size_slice hfits, ← hx, Array.size_map]
  rw [Array.getElem?_map, hentries i (hsize ▸ hi), hlength]
  refine congrArg (offset i + ·) (Finset.sum_congr rfl fun j hj => ?_)
  rw [← Array.getElem?_map, hx, Span.getD_slice 0 (Finset.mem_range.1 hj)]
  rfl

/-- **A lane of the outputs after an evaluation.** Real parts follow a law in complex arithmetic if
that carries it along. -/
theorem Component.lane_of_evaluate (law : AffineLaw R) {complex : Bool}
    (hsource : ∀ lane, (lane = .complex → complex = true) → source.stop ≤ (inputs.lane lane).size)
    (htarget : ∀ lane, (lane = .complex → complex = true) → target.stop ≤ (outputs.lane lane).size)
    (h : (c.evaluate inputs source target complex).perform (memory, outputs) =
      (.ok (), memory', outputs')) (hmode : mode = .complex → complex = true) :
    outputs'.size = outputs.size ∧ ∃ z, outputs'.lane mode = target.overwrite (outputs.lane mode) z ∧
      (c.Idle → z = target.slice (outputs.lane mode)) ∧
      (c.Obeys law → (mode = .complex → c.complexSafe = true) →
        (mode = .real → complex = true →
          Action.Reproduces c.computeComplex ComplexNumber.re law.offset law.slope) →
        z.size = target.size ∧ ∀ r < target.size, (z[r]?).getD 0 = law.offsetIn mode r +
          ∑ j ∈ Finset.range source.size, law.slope r j * inputs.entry mode (source.start + j)) := by
  -- in each kind of arithmetic a part of the numbers that are read and computed is at stake
  suffices hpart : ∃ (α : Type) (f : Array α → Array α → Action M (DeclarationError R) (Array α))
      (part : α → R) (x y z : Array α), (f x y).perform memory = (.ok z, memory') ∧
      x.map part = source.slice (inputs.lane mode) ∧ y.map part = target.slice (outputs.lane mode) ∧
      outputs'.size = outputs.size ∧
      outputs'.lane mode = target.overwrite (outputs.lane mode) (z.map part) ∧
      (c.Idle → z = y) ∧
      (c.Obeys law → (mode = .complex → c.complexSafe = true) →
        (mode = .real → complex = true →
          Action.Reproduces c.computeComplex ComplexNumber.re law.offset law.slope) →
        Action.Reproduces f part (law.offsetIn mode) law.slope) by
    obtain ⟨α, f, part, x, y, z, hz, hx, hy, hsize, hlane, hidle, hobeys⟩ := hpart
    refine ⟨hsize, z.map part, hlane, fun hholds => hidle hholds ▸ hy, fun hlaw hsafe hcarried => ?_⟩
    have hlength : y.size = target.size := by
      rw [← Array.size_map (f := part), hy, Span.size_slice (htarget mode hmode)]
    obtain ⟨hwritten, hentries⟩ := Action.Reproduces.entries (hobeys hlaw hsafe hcarried) hz hx
      (hsource mode hmode)
    rw [Array.size_map, hwritten, ← hlength]
    exact ⟨rfl, hentries⟩
  have hreal (lane : Mode) (hlane : lane = .real) : lane = .complex → complex = true :=
    fun h => by cases hlane.symm.trans h
  have hread := hsource .real (hreal _ rfl)
  have hwrite := htarget .real (hreal _ rfl)
  simp only [evaluate, Action.perform_of] at h
  cases complex with
  | false =>
    simp only [Bool.false_eq_true, if_false] at h
    rcases hz : (c.computeReal (inputs.readReal source) (outputs.readReal target)).perform memory
      with ⟨e | z, ν⟩
    · rw [hz] at h
      cases h
    rw [hz] at h
    cases h
    cases mode with
    | complex => cases hmode rfl
    | real =>
      refine ⟨R, _, id, _, _, z, hz, Array.map_id _, Array.map_id _, Span.size_overwrite _ _ _, ?_,
        fun hidle => ?_, fun hlaw _ _ => hlaw.real⟩
      · rw [Array.map_id]
        rfl
      · rw [hidle.real] at hz
        cases hz
        rfl
  | true =>
    have hread' := hsource .complex fun _ => rfl
    have hwrite' := htarget .complex fun _ => rfl
    simp only [if_true] at h
    rcases hz : (c.computeComplex (inputs.readComplex source)
      (outputs.readComplex target)).perform memory with ⟨e | z, ν⟩
    · rw [hz] at h
      cases h
    rw [hz] at h
    cases h
    have hidle (hholds : c.Idle) : z = outputs.readComplex target := by
      rw [hholds.complex] at hz
      cases hz
      rfl
    cases mode with
    | real =>
      exact ⟨_, _, ComplexNumber.re, _, _, z, hz, StateVector.map_re_readComplex hread hread',
        StateVector.map_re_readComplex hwrite hwrite', Span.size_overwrite _ _ _, rfl, hidle,
        fun _ _ hcarried => hcarried rfl rfl⟩
    | complex =>
      refine ⟨_, _, ComplexNumber.im, _, _, z, hz, StateVector.map_im_readComplex hread hread',
        StateVector.map_im_readComplex hwrite hwrite', Span.size_overwrite _ _ _, ?_, hidle,
        fun hlaw hsafe _ => hlaw.complex (hsafe rfl)⟩
      cases him : outputs.imag <;>
        simp [StateVector.lane, StateVector.storeComplex, StateVector.writeImag,
          StateVector.writeReal, him, Span.overwrite]

/-- What holds of the real lane and of that of a mode holds of all that its arithmetic carries. -/
theorem Mode.forall_carried {P : Mode → Prop} (hreal : P .real) (h : P mode) (lane : Mode)
    (hlane : lane = .complex → decide (mode = .complex) = true) : P lane := by
  cases lane with
  | real => exact hreal
  | complex => exact of_decide_eq_true (hlane rfl) ▸ h

end Evaluate

namespace Model

variable (m : Model R M)

/-- A model of affine components as an affine system. -/
def flow (laws : Nat → AffineLaw R) : Flow R where
  inputs := m.inputLength
  slope r p :=
    match (m.ownerOf? .output r).bind fun k => m.components[k]?.map fun c => (k, c) with
    | some (k, c) =>
      if c.inputs.contains p then (laws k).slope (r - c.outputs.start) (p - c.inputs.start) else 0
    | none => 0
  wire := m.wire

/-- What an entry of the inputs becomes when it is pulled. -/
def pulled (scope : Span) (mode : Mode) (s : ModelState R M) (p : Nat) : R :=
  match (m.wire p).filter (m.inScope scope) with
  | some q => s.outputs.entry mode q
  | none => s.inputs.entry mode p

variable {m} {laws : Nat → AffineLaw R} {s s' : ModelState R M} {mode : Mode} {scope : Span}
  {k : Nat} {c : ModelComponent R M}

theorem pulled_eq_feed (laws : Nat → AffineLaw R) (p : Nat) : m.pulled scope mode s p =
    ((m.flow laws).within (m.inScope scope)).feed (s.inputs.entry mode) (s.outputs.entry mode) p :=
  rfl

section Laid

variable (hm : m.Laid)

include hm

/-- Pulling an input changes its own entries, to what they read. -/
theorem Laid.pullInput_spec (scope : Span) (hs : m.Sized mode s) (id : Nat) :
    m.Sized mode (m.pullInput scope s id) ∧ (m.pullInput scope s id).outputs = s.outputs ∧
      ∀ p, (m.pullInput scope s id).inputs.entry mode p =
        if m.holder? .input p = some id then m.pulled scope mode s p
        else s.inputs.entry mode p := by
  have hunread (h : ∀ p, m.holder? .input p = some id → m.wire p = none ∨
      ∃ q, m.wire p = some q ∧ m.inScope scope q = false) (p : Nat) : s.inputs.entry mode p =
      if m.holder? .input p = some id then m.pulled scope mode s p else s.inputs.entry mode p := by
    split
    · rename_i hp
      rcases h p hp with hnone | ⟨q, hq, hout⟩
      · simp [pulled, hnone]
      · simp only [pulled, hq, Option.filter_some, hout, Bool.false_eq_true, if_false]
    · rfl
  cases hsource : m.source? id with
  | none =>
    rw [pullInput_of_none _ _ hsource]
    refine ⟨hs, rfl, hunread fun p hp => ?_⟩
    obtain ⟨v, hv, hkind, hcontains⟩ := exists_of_holder? hp
    exact .inl (hm.wire_of_none hv hkind hcontains hsource)
  | some source =>
    obtain ⟨v, w, hv, hvkind, hw, hwkind, hsize⟩ := hm.matching _ _ hsource
    have hread {p : Nat} (hp : w.span.contains p = true) :
        m.wire p = some (v.start + (p - w.start)) ∧
          m.inScope scope (v.start + (p - w.start)) = scope.contains v.owner := by
      obtain ⟨hwire, -, hinside⟩ := hm.wire_of_source hw hp hsource hv
      have howner := hm.ownerOf?_eq hv hinside
      rw [hvkind] at howner
      exact ⟨hwire, by rw [inScope, howner, Option.any_some]⟩
    have hholds {p : Nat} (hp : m.holder? .input p = some id) : w.span.contains p = true := by
      obtain ⟨w', hw', -, hcontains⟩ := exists_of_holder? hp
      exact Option.some.inj (hw'.symm.trans hw) ▸ hcontains
    simp only [pullInput, hw, hsource, Option.bind_some, hv]
    by_cases hscope : scope.contains v.owner = true
    swap
    · rw [if_neg hscope]
      refine ⟨hs, rfl, hunread fun p hp => .inr ⟨_, (hread (hholds hp)).1, ?_⟩⟩
      rw [(hread (hholds hp)).2]
      simpa using hscope
    rw [if_pos hscope]
    have htarget : w.span.stop ≤ (s.inputs.lane mode).size := by
      rw [show (s.inputs.lane mode).size = _ from hs.lane .input, ← hwkind]
      exact hm.stop_le hw
    have hfrom : v.span.stop ≤ (s.outputs.lane mode).size := by
      rw [show (s.outputs.lane mode).size = _ from hs.lane .output, ← hvkind]
      exact hm.stop_le hv
    refine ⟨⟨fun kind => ?_, fun kind => ?_⟩, rfl, fun p => ?_⟩
    · cases kind with
      | input => exact (StateVector.size_copy _ _ _ _).trans (hs.fits .input)
      | output => exact hs.fits .output
    · cases kind with
      | input =>
        rw [← hs.lane .input]
        simp only [ModelState.vector, StateVector.lane_copy, Span.size_overwrite]
      | output => exact hs.lane .output
    · rw [StateVector.entry, StateVector.lane_copy, Span.getD_overwrite htarget
        ((Span.size_slice hfrom).trans hsize)]
      by_cases hp : w.span.contains p = true
      · have hholder := hm.holder?_eq hw hp
        rw [hwkind] at hholder
        have hlt : p - w.span.start < v.span.size := by
          rw [Span.contains_iff] at hp
          have : w.span.stop = w.span.start + w.span.size := rfl
          have hsize : v.span.size = w.span.size := hsize
          omega
        rw [if_pos hp, if_pos hholder, Span.getD_slice _ hlt]
        simp only [pulled, (hread hp).1, Option.filter_some, (hread hp).2, hscope, if_true]
        rfl
      · rw [if_neg hp, if_neg (mt hholds hp)]
        rfl

/-- **Pulling the inputs of a component** changes their entries to what they read. -/
theorem Laid.pull_spec (scope : Span) (hs : m.Sized mode s) (hc : m.components[k]? = some c) :
    m.Sized mode (m.pull scope c s) ∧ (m.pull scope c s).outputs = s.outputs ∧
      ∀ p, (m.pull scope c s).inputs.entry mode p =
        if c.inputs.contains p then m.pulled scope mode s p else s.inputs.entry mode p := by
  have hpull (ids : List Nat) (t : ModelState R M) (ht : m.Sized mode t) :
      m.Sized mode (ids.foldl (m.pullInput scope) t) ∧
        (ids.foldl (m.pullInput scope) t).outputs = t.outputs ∧
        ∀ p, (ids.foldl (m.pullInput scope) t).inputs.entry mode p =
          if ∃ id ∈ ids, m.holder? .input p = some id then m.pulled scope mode t p
          else t.inputs.entry mode p := by
    induction ids generalizing t with
    | nil => exact ⟨ht, rfl, fun p => by simp⟩
    | cons id rest ih =>
      obtain ⟨hsized, houtputs, hentry⟩ := hm.pullInput_spec scope ht id
      obtain ⟨hsized', houtputs', hentry'⟩ := ih _ hsized
      refine ⟨hsized', houtputs'.trans houtputs, fun p => ?_⟩
      -- an entry that was pulled is pulled to the same again
      have hpulled : m.pulled scope mode (m.pullInput scope t id) p = m.pulled scope mode t p := by
        unfold pulled
        rw [houtputs]
        split
        · rfl
        · rename_i hnone
          rw [hentry, pulled, hnone, ite_self]
      rw [List.foldl_cons, hentry', hpulled, hentry]
      by_cases hrest : ∃ id ∈ rest, m.holder? .input p = some id
      · have hall : ∃ i ∈ id :: rest, m.holder? .input p = some i :=
          hrest.imp fun _ h => ⟨List.mem_cons_of_mem _ h.1, h.2⟩
        rw [if_pos hrest, if_pos hall]
      · simp only [hrest, if_false, List.mem_cons, exists_eq_or_imp, or_false]
  obtain ⟨hsized, houtputs, hentry⟩ := hpull c.inputIds s hs
  refine ⟨hsized, houtputs, fun p => ?_⟩
  rw [pull, hentry]
  refine if_congr (Iff.intro ?_ fun hp => ?_) rfl rfl
  · rintro ⟨id, hid, hp⟩
    obtain ⟨v, hv, hkind, hcontains⟩ := exists_of_holder? hp
    have howner := (hm.mem_idsOf_iff hc hv).1 (hkind ▸ hid)
    have h := hm.ownerOf?_eq hv hcontains
    rw [hkind, howner] at h
    exact (hm.owner_input_iff hc).1 h
  · have hp : (Flattening.spanOf c .input).contains p = true := hp
    obtain ⟨id, v, hid, hmem, -⟩ := hm.exists_holder hc hp
    exact ⟨id, hmem, hid⟩

/-- **Running a component** takes each of its outputs to what its law says of its inputs, or leaves
all of them as they are. -/
theorem Laid.compute_spec (law : AffineLaw R) (hs : m.Sized mode s) (hc : m.components[k]? = some c)
    (hmode : mode = .complex → m.complex = true ∧ c.component.complexSafe = true)
    (h : (m.compute k mode).perform s = (.ok (), s')) :
    s'.inputs = s.inputs ∧ m.Sized mode s' ∧
      (∀ r, c.outputs.contains r = false → s'.outputs.entry mode r = s.outputs.entry mode r) ∧
      (c.component.Idle → ∀ r, s'.outputs.entry mode r = s.outputs.entry mode r) ∧
      (c.component.Obeys law → ∀ r, c.outputs.contains r = true → s'.outputs.entry mode r =
        law.offsetIn mode (r - c.outputs.start) + ∑ j ∈ Finset.range c.inputs.size,
          law.slope (r - c.outputs.start) j * s.inputs.entry mode (c.inputs.start + j)) := by
  unfold compute at h
  obtain ⟨c', _, hcomponent, h⟩ := Action.bind_eq_ok.1 h
  simp only [Model.component, Action.perform_ofOutcome, hc, Outcome.ofOption, Prod.mk.injEq,
    Except.ok.injEq] at hcomponent
  obtain ⟨rfl, rfl⟩ := hcomponent
  obtain ⟨kept, _, hkept, h⟩ := Action.bind_eq_ok.1 h
  obtain ⟨-, rfl⟩ := Prod.mk.inj hkept
  have hcomplex : m.isComplexIn mode = decide (mode = .complex) := by
    cases mode with
    | real => rfl
    | complex => simp [isComplexIn, (hmode rfl).1]
  rw [hcomplex, Action.perform_of] at h
  rcases heval : (c.component.evaluate s.inputs c.inputs c.outputs
    (decide (mode = .complex))).perform (kept.memory, s.outputs) with ⟨o, memory, outputs⟩
  rw [heval] at h
  obtain ⟨ho, rfl⟩ := Prod.mk.inj h
  rw [Outcome.mapError_eq_ok] at ho
  rw [ho] at heval
  have hinside (kind : VariableKind) : (Flattening.spanOf c kind).stop ≤ m.lengthOf kind :=
    hm.inside c (List.mem_of_getElem? hc) kind
  have hsource := Mode.forall_carried (P := fun lane => c.inputs.stop ≤ (s.inputs.lane lane).size)
    ((hinside .input).trans (hs.fits .input).ge) ((hinside .input).trans (hs.lane .input).ge)
  have htarget := Mode.forall_carried (P := fun lane => c.outputs.stop ≤ (s.outputs.lane lane).size)
    ((hinside .output).trans (hs.fits .output).ge) ((hinside .output).trans (hs.lane .output).ge)
  obtain ⟨hsize, z, hlane, hidle, hobeys⟩ :=
    Component.lane_of_evaluate law hsource htarget heval decide_eq_true
  refine ⟨rfl, ⟨fun kind => ?_, fun kind => ?_⟩, fun r hr => ?_, fun hholds r => ?_,
    fun hlaw r hr => ?_⟩
  · cases kind with
    | input => exact hs.fits .input
    | output => exact hsize.trans (hs.fits .output)
  · cases kind with
    | input => exact hs.lane .input
    | output => exact (congrArg Array.size hlane).trans ((Span.size_overwrite _ _ _).trans
        (hs.lane .output))
  · rw [StateVector.entry, hlane, Span.getElem?_overwrite_of_not_contains _ _ _ r hr]
    rfl
  · rw [StateVector.entry, hlane, hidle hholds, Span.overwrite_slice]
    rfl
  · obtain ⟨hz, hentries⟩ := hobeys hlaw (fun hmode' => (hmode hmode').2) fun hreal hcomplex => by
      cases hreal.symm.trans (of_decide_eq_true hcomplex)
    rw [StateVector.entry, hlane, Span.getD_overwrite (htarget mode decide_eq_true) hz, if_pos hr]
    refine hentries _ ?_
    rw [Span.contains_iff, Span.stop] at hr
    omega

/-- The slopes of an output entry are those of its component. -/
theorem Laid.slope_flow (hc : m.components[k]? = some c) {r : Nat}
    (hr : c.outputs.contains r = true) (p : Nat) : (m.flow laws).slope r p =
      if c.inputs.contains p then (laws k).slope (r - c.outputs.start) (p - c.inputs.start)
      else 0 := by
  simp only [flow, (hm.owner_output_iff hc).2 hr, Option.bind_some, hc,
    Option.map_some]

/-- A sum over all inputs goes over those of the component. -/
theorem Laid.sum_slope (hc : m.components[k]? = some c) {r : Nat}
    (hr : c.outputs.contains r = true) (f : Nat → R) :
    ∑ p ∈ Finset.range m.inputLength, (m.flow laws).slope r p * f p =
      ∑ j ∈ Finset.range c.inputs.size,
        (laws k).slope (r - c.outputs.start) j * f (c.inputs.start + j) := by
  have hstop : c.inputs.stop ≤ m.inputLength := hm.inside c (List.mem_of_getElem? hc) .input
  have hfilter : (Finset.range m.inputLength).filter (fun p => c.inputs.contains p = true) =
      Finset.Ico c.inputs.start c.inputs.stop := by
    ext p
    rw [Finset.mem_filter, Finset.mem_range, Finset.mem_Ico, Span.contains_iff]
    omega
  simp only [hm.slope_flow hc hr, ite_mul, zero_mul]
  rw [← Finset.sum_filter, hfilter, Finset.sum_Ico_eq_sum_range, Span.stop,
    Nat.add_sub_cancel_left]
  simp only [Nat.add_sub_cancel_left]

/-- What no slope leads to does not belong to a component whose inputs they are. -/
theorem Laid.of_slope_flow_ne_zero {r p : Nat} (h : (m.flow laws).slope r p ≠ 0) :
    ∃ k c, m.components[k]? = some c ∧ c.outputs.contains r = true ∧ c.inputs.contains p = true ∧
      (laws k).slope (r - c.outputs.start) (p - c.inputs.start) ≠ 0 := by
  simp only [flow] at h
  split at h
  · rename_i k c hfound
    obtain ⟨k', hk, hfound⟩ := Option.bind_eq_some_iff.1 hfound
    obtain ⟨c', hc, hpair⟩ := Option.map_eq_some_iff.1 hfound
    cases hpair
    split at h
    · rename_i hp
      exact ⟨k, c, hc, (hm.owner_output_iff hc).1 hk, hp, h⟩
    · exact absurd rfl h
  · exact absurd rfl h

end Laid

end Model

end Sensitivity
