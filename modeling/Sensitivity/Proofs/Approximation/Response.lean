import Sensitivity.Proofs.Approximation.Restoring
import Sensitivity.Proofs.Table

/-!
# What a direction measures

The response of a target to some moves is what a variable reads after entries were moved and
everything was evaluated (`Target.response`). On an exact target, one that returns and whose
answers depend on a view of its state alone (`Target.Exact`), responses at a fixed state are all
that the evaluation of a direction depends on.

An entry of a finite difference is the weighted sum of the responses of that entry at the points of
the stencil (`Stencil.get?_of_difference`); an entry of a complex step is the response to imaginary
moves while the step is announced (`StepEngine.get?_of_runIdle`).
-/

namespace Sensitivity

variable {R σ γ : Type}

/-- An entry that is moved, and by how much. -/
structure Move (R : Type) where
  name : String
  index : Nat
  delta : Delta R

namespace Target

variable (T : Target R σ)

/-- Moves entries and evaluates everything. -/
def shift (moves : List (Move R)) (mode : Mode) : Action σ (ApproximationError R) Unit := do
  Action.forEach moves fun m => T.perturb m.name m.index m.delta
  T.evaluate .all mode

/-- What a variable reads after moves from a state. -/
def response (moves : List (Move R)) (mode : Mode) (name : String) (part : Part) (s : σ) :
    Outcome (ApproximationError R) (List R) :=
  ((T.shift moves mode).perform s).1.bind fun _ =>
    T.values ((T.shift moves mode).perform s).2 name part

/-- A target that returns, and whose answers depend on a view of its state alone. -/
structure Exact (view : σ → γ) : Prop extends T.Restoring view where
  size : ∀ {s t}, view s = view t → ∀ name, T.size s name = T.size t name
  values : ∀ {s t}, view s = view t → ∀ name part, T.values s name part = T.values t name part
  perturb : ∀ name index delta, (T.perturb name index delta).Respects view
  evaluate : ∀ active mode, (T.evaluate active mode).Respects view
  enter : ∀ {s t}, view s = view t → ∀ owner h, view (T.enter owner h s) = view (T.enter owner h t)
  complexCapable : ∀ {s t}, view s = view t → T.complexCapable s = T.complexCapable t
  complexStepActive : ∀ {s t}, view s = view t → T.complexStepActive s = T.complexStepActive t

variable {T}

theorem Exact.shift {view : σ → γ} (hT : T.Exact view) (moves : List (Move R)) (mode : Mode) :
    (T.shift moves mode).Respects view :=
  Action.respects_bind (Action.respects_forEach fun m => hT.perturb m.name m.index m.delta) fun _ =>
    hT.evaluate .all mode

/-- Responses depend on the view alone. -/
theorem Exact.response {view : σ → γ} (hT : T.Exact view) {s t : σ} (h : view s = view t)
    (moves : List (Move R)) (mode : Mode) (name : String) (part : Part) :
    T.response moves mode name part s = T.response moves mode name part t := by
  obtain ⟨ho, hv⟩ := hT.shift moves mode s t h
  simp only [Target.response, ho, hT.values hv]

/-- What was read of several variables is found under their names. -/
theorem find_of_readAll {s : σ} {names : List String} {part : Part}
    {read : List (String × List R)} (h : ((T.readAll names part).perform s).1 = .ok read) :
    read.map Prod.fst = names ∧
      ∀ n ∈ names, ∃ vs, T.values s n part = .ok vs ∧ Table.find n read = some vs := by
  change (names.mapM fun n => do return (n, ← T.values s n part)) = .ok read at h
  have hkeys : read.map Prod.fst = names := by
    have hall := Except.mapM_eq_ok.1 h
    clear h
    induction hall with
    | nil => rfl
    | cons hx _ ih =>
      obtain ⟨vs, -, he⟩ := Except.bind_eq_ok.1 hx
      cases he
      rw [List.map_cons, ih]
  refine ⟨hkeys, fun n hn => ?_⟩
  obtain ⟨vs, hvs⟩ := Option.ne_none_iff_exists'.1 fun hnone =>
    Table.find_eq_none_iff.1 hnone (hkeys ▸ hn)
  obtain ⟨m, -, hm⟩ := (Except.mem_mapM h).1 (Table.mem_of_find hvs)
  obtain ⟨ws, hws, he⟩ := Except.bind_eq_ok.1 hm
  cases he
  exact ⟨vs, hws, hvs⟩

end Target

namespace Stencil

variable [Scalar R] {T : Target R σ} {view : σ → γ}

/-- The moves of a point of a stencil. -/
def moves (perturbations : List (Perturbation R)) (offset : R) : List (Move R) :=
  perturbations.map fun p => ⟨p.name, p.index, .real (offset * p.step)⟩

/-- What is read at a point of a stencil are responses. -/
theorem find_of_evaluatePoint {perturbations : List (Perturbation R)} {offset : R}
    {of : List String} {s : σ} {read : List (String × List R)}
    (h : ((evaluatePoint T perturbations offset .all of).perform s).1 = .ok read) :
    read.map Prod.fst = of ∧ ∀ n ∈ of, ∃ vs,
      T.response (moves perturbations offset) .real n .real s = .ok vs ∧
        Table.find n read = some vs := by
  have hshift : evaluatePoint T perturbations offset .all of =
      T.shift (moves perturbations offset) .real >>= fun _ => T.readAll of .real := by
    simp only [evaluatePoint, Target.shift, moves, Action.forEach_map, bind_assoc]
  rw [hshift, Action.perform_bind] at h
  rcases ho : (T.shift (moves perturbations offset) .real).perform s with ⟨_ | ⟨⟩, u⟩
  · simp [ho] at h
  · simp only [ho] at h
    obtain ⟨hkeys, hfind⟩ := Target.find_of_readAll h
    refine ⟨hkeys, fun n hn => ?_⟩
    obtain ⟨vs, hvs, hf⟩ := hfind n hn
    exact ⟨vs, by simp only [Target.response, ho]; exact hvs, hf⟩

theorem getElem?_addWeighted (weight : R) (as vs : List R) (i : Nat) :
    (addWeighted weight as vs)[i]? = as[i]?.map fun a => match vs[i]? with
      | some v => a + weight * v
      | none => a := by
  induction as generalizing vs i with
  | nil => cases vs <;> simp [addWeighted]
  | cons a as ih =>
    cases vs with
    | nil => simp [addWeighted]
    | cons v vs => cases i <;> simp [addWeighted, ih]

/-- A point adds to the sum of each variable that was read. -/
theorem get?_accumulate (weight : R) (sums : Table String (List R))
    {point : List (String × List R)} (hn : (point.map Prod.fst).Nodup) (name : String) :
    (accumulate weight sums point).get? name = (sums.get? name).map fun acc =>
      match Table.find name point with
      | some vs => addWeighted weight acc vs
      | none => acc := by
  induction point generalizing sums with
  | nil => simp [accumulate, Table.find]
  | cons nv rest ih =>
    obtain ⟨hnot, hrest⟩ := List.nodup_cons.1 hn
    have hstep : accumulate weight sums (nv :: rest) = accumulate weight (match sums.get? nv.1 with
      | some acc => sums.insert nv.1 (addWeighted weight acc nv.2)
      | none => sums) rest := rfl
    rw [hstep, ih _ hrest]
    by_cases h : nv.1 = name
    · subst h
      cases hs : sums.get? nv.1 <;>
        simp [hs, Table.find, Table.get?_insert, Table.find_eq_none_iff.2 hnot]
    · cases hs : sums.get? nv.1 <;> simp [Table.find, h, Ne.symm h, Table.get?_insert]

/-- Adds the weighted values of an entry, as far as they are there. -/
def sumEntries (points : List (R × R)) (entries : List (Option R)) (start : R) : R :=
  (points.zip entries).foldl (fun sum pe => match pe.2 with
    | some v => sum + pe.1.2 * v
    | none => sum) start

/-- The values of an entry at some points of a stencil, all of which can be evaluated. -/
def Responds (T : Target R σ) (perturbations : List (Perturbation R)) (name : String) (i : Nat)
    (s : σ) (points : List (R × R)) (entries : List (Option R)) : Prop :=
  List.Forall₂ (fun point entry => ∃ vs,
    T.response (moves perturbations point.1) .real name .real s = .ok vs ∧ vs[i]? = entry)
    points entries

/-- The first of some points adds its response to the sum of a variable, and the others follow from
where the target returns to. -/
theorem response_of_sumPoints {s t u : σ} {perturbations : List (Perturbation R)}
    {of : List String} (hn : of.Nodup) {offset weight : R} {points : List (R × R)}
    {sums out : Table String (List R)}
    (h : (sumPoints T s perturbations .all of ((offset, weight) :: points) sums).perform t =
      (.ok out, u))
    {name : String} (hname : name ∈ of) {acc : List R} (hacc : sums.get? name = some acc) :
    ∃ own read w, T.response (moves perturbations offset) .real name .real t = .ok own ∧
      (evaluatePoint T perturbations offset .all of).perform t = (.ok read, w) ∧
      (accumulate weight sums read).get? name = some (addWeighted weight acc own) ∧
      (sumPoints T s perturbations .all of points (accumulate weight sums read)).perform
        (T.restore s w) = (.ok out, u) := by
  simp only [sumPoints] at h
  obtain ⟨read, w, hpoint, hrest⟩ := Action.bind_eq_ok.1 h
  obtain ⟨ho, rfl⟩ := Prod.mk.inj hpoint
  obtain ⟨hkeys, hfind⟩ := find_of_evaluatePoint ho
  obtain ⟨own, hown, hf⟩ := hfind name hname
  refine ⟨own, read, _, hown, Prod.ext ho rfl, ?_, hrest⟩
  rw [get?_accumulate weight sums (hkeys ▸ hn), hacc, hf]
  rfl

/-- The sum of a variable after all points. The target is back at the saved view before each. -/
theorem get?_of_sumPoints (hT : T.Exact view) {s t u : σ} {perturbations : List (Perturbation R)}
    {of : List String} (hn : of.Nodup) {points : List (R × R)} {sums out : Table String (List R)}
    (hm : T.Moved s t) (hv : view t = view s)
    (h : (sumPoints T s perturbations .all of points sums).perform t = (.ok out, u))
    {name : String} (hname : name ∈ of) {acc : List R} (hacc : sums.get? name = some acc) :
    ∃ vs, out.get? name = some vs ∧ ∀ i, ∃ entries,
      Responds T perturbations name i s points entries ∧
        vs[i]? = acc[i]?.map (sumEntries points entries) := by
  induction points generalizing sums acc t with
  | nil =>
    cases h
    refine ⟨acc, hacc, fun i => ⟨[], .nil, ?_⟩⟩
    cases acc[i]? <;> rfl
  | cons point rest ih =>
    obtain ⟨offset, weight⟩ := point
    obtain ⟨own, read, w, hown, hpoint, hsum, hrest⟩ := response_of_sumPoints hn h hname hacc
    have hmoved : T.Moved s w := by
      have := preserves_moved_evaluatePoint s perturbations offset .all of t hm (by simp [hpoint])
      rwa [hpoint] at this
    obtain ⟨vs, hvs, hentries⟩ := ih (.restore hmoved) (hT.restore hmoved) hrest hsum
    refine ⟨vs, hvs, fun i => ?_⟩
    obtain ⟨entries, hresponds, hi⟩ := hentries i
    refine ⟨own[i]? :: entries, .cons ⟨own, hT.response hv .. ▸ hown, rfl⟩ hresponds, ?_⟩
    rw [hi, getElem?_addWeighted]
    cases acc[i]? with
    | none => rfl
    | some a => cases own[i]? <;> simp [sumEntries]

/-- The sum of a variable after a single point, on any target. -/
theorem get?_of_sumPoints_singleton {s u : σ} {perturbations : List (Perturbation R)}
    {of : List String} (hn : of.Nodup) {point : R × R} {sums out : Table String (List R)}
    (h : (sumPoints T s perturbations .all of [point] sums).perform s = (.ok out, u))
    {name : String} (hname : name ∈ of) {acc : List R} (hacc : sums.get? name = some acc) :
    ∃ vs, out.get? name = some vs ∧ ∀ i, ∃ entries,
      Responds T perturbations name i s [point] entries ∧
        vs[i]? = acc[i]?.map (sumEntries [point] entries) := by
  obtain ⟨own, read, w, hown, -, hsum, hrest⟩ := response_of_sumPoints hn h hname hacc
  cases hrest
  refine ⟨_, hsum, fun i => ⟨[own[i]?], .cons ⟨own, hown, rfl⟩ .nil, ?_⟩⟩
  rw [getElem?_addWeighted]
  cases acc[i]? with
  | none => rfl
  | some a => cases own[i]? <;> simp [sumEntries]

/-- The sums begin with the weighted values at the point itself. -/
theorem get?_of_startSums {st : Stencil R} {of : List String}
    {baseline start : Table String (List R)} (h : st.startSums of baseline = .ok start)
    {name : String} (hname : name ∈ of) :
    ∃ f, baseline.get? name = some f ∧
      start.get? name = some (f.map fun v => st.baseline * v) := by
  have hfold (names : List String) (t u : Table String (List R))
      (h : names.foldlM (fun t name => match baseline.get? name with
        | some f => Except.ok (t.insert name (f.map fun v => st.baseline * v))
        | none => Except.error (ApproximationError.unknownVariable (R := R) name)) t = .ok u)
      (hkept : name ∈ names ∨ ∃ f, baseline.get? name = some f ∧
        t.get? name = some (f.map fun v => st.baseline * v)) :
      ∃ f, baseline.get? name = some f ∧
        u.get? name = some (f.map fun v => st.baseline * v) := by
    induction names generalizing t with
    | nil =>
      cases h
      simpa using hkept
    | cons m rest ih =>
      rw [List.foldlM_cons] at h
      obtain ⟨t', ht', h⟩ := Except.bind_eq_ok.1 h
      refine ih t' h ?_
      split at ht'
      · rename_i f hf
        cases ht'
        by_cases hm : name = m
        · subst hm
          exact .inr ⟨f, hf, by rw [Table.get?_insert, if_pos rfl]⟩
        · rw [Table.get?_insert, if_neg hm]
          simpa [hm] using hkept
      · cases ht'
  exact hfold of ∅ start h (.inl hname)

/-- A difference sums up the points of its stencil and divides by its denominator. -/
theorem sums_of_difference {st : Stencil R} {s u : σ} {perturbations : List (Perturbation R)}
    {of : List String} {baseline out : Table String (List R)}
    (h : (st.difference T perturbations .all of baseline).perform s = (.ok out, u))
    {name : String} (hname : name ∈ of) :
    ∃ f start sums, baseline.get? name = some f ∧
      start.get? name = some (f.map fun v => st.baseline * v) ∧
      (sumPoints T s perturbations .all of st.points start).perform s = (.ok sums, u) ∧
      out.get? name = (sums.get? name).map fun vs => vs.map fun v => v / st.denominator := by
  simp only [difference] at h
  obtain ⟨start, w, hstart, h⟩ := Action.bind_eq_ok.1 h
  obtain ⟨ho, rfl⟩ := Prod.mk.inj hstart
  obtain ⟨f, hf, hacc⟩ := get?_of_startSums ((Outcome.ofExcept_eq_ok _ _).1 ho) hname
  obtain ⟨saved, w, hsaved, h⟩ := Action.bind_eq_ok.1 h
  cases hsaved
  obtain ⟨sums, w, hsums, h⟩ := Action.bind_eq_ok.1 h
  cases h
  exact ⟨f, start, sums, hf, hacc, hsums, Table.get?_map ..⟩

/-- What the points of a stencil sum up to makes the entries of a difference. -/
theorem entries_of_sums (st : Stencil R) {s : σ} {perturbations : List (Perturbation R)}
    {name : String} {f sum : List R}
    (h : ∀ i, ∃ entries, Responds T perturbations name i s st.points entries ∧
      sum[i]? = (f.map fun v => st.baseline * v)[i]?.map (sumEntries st.points entries)) (i : Nat) :
    ∃ entries, Responds T perturbations name i s st.points entries ∧
      (sum.map fun v => v / st.denominator)[i]? = f[i]?.map fun v =>
        sumEntries st.points entries (st.baseline * v) / st.denominator := by
  obtain ⟨entries, hresponds, hi⟩ := h i
  refine ⟨entries, hresponds, ?_⟩
  rw [List.getElem?_map, hi, List.getElem?_map]
  cases f[i]? <;> rfl

/-- **An entry of a difference** is the weighted sum of its responses over the denominator. -/
theorem get?_of_difference (hT : T.Exact view) {st : Stencil R} {s u : σ}
    {perturbations : List (Perturbation R)} {of : List String} (hn : of.Nodup)
    {baseline out : Table String (List R)}
    (h : (st.difference T perturbations .all of baseline).perform s = (.ok out, u))
    {name : String} (hname : name ∈ of) :
    ∃ f vs, baseline.get? name = some f ∧ out.get? name = some vs ∧ ∀ i, ∃ entries,
      Responds T perturbations name i s st.points entries ∧
        vs[i]? = f[i]?.map fun v =>
          sumEntries st.points entries (st.baseline * v) / st.denominator := by
  obtain ⟨f, start, sums, hf, hacc, hsums, hout⟩ := sums_of_difference h hname
  obtain ⟨vs, hvs, hentries⟩ := get?_of_sumPoints hT hn .start rfl hsums hname hacc
  rw [hvs, Option.map_some] at hout
  exact ⟨f, _, hf, hout, entries_of_sums st hentries⟩

/-- **An entry of a difference with a single point**, on any target. -/
theorem get?_of_difference_singleton {point : R × R} {b denominator : R} {s u : σ}
    {perturbations : List (Perturbation R)} {of : List String} (hn : of.Nodup)
    {baseline out : Table String (List R)}
    (h : ((⟨[point], b, denominator⟩ : Stencil R).difference T perturbations .all of
      baseline).perform s = (.ok out, u))
    {name : String} (hname : name ∈ of) :
    ∃ f vs, baseline.get? name = some f ∧ out.get? name = some vs ∧ ∀ i, ∃ entries,
      Responds T perturbations name i s [point] entries ∧
        vs[i]? = f[i]?.map fun v => sumEntries [point] entries (b * v) / denominator := by
  obtain ⟨f, start, sums, hf, hacc, hsums, hout⟩ := sums_of_difference h hname
  obtain ⟨vs, hvs, hentries⟩ := get?_of_sumPoints_singleton hn hsums hname hacc
  rw [hvs, Option.map_some] at hout
  exact ⟨f, _, hf, hout, entries_of_sums ⟨[point], b, denominator⟩ hentries⟩

end Stencil

namespace StepEngine

variable [Scalar R] {T : Target R σ}

/-- The moves of a complex step. -/
def moves (perturbations : List (Perturbation R)) : List (Move R) :=
  perturbations.map fun p => ⟨p.name, p.index, .imag p.step⟩

/-- The state in which a complex step is announced. -/
def announced (T : Target R σ) (owner : String) (perturbations : List (Perturbation R)) (s : σ) :
    σ :=
  T.enter owner (Scalar.maximum (perturbations.map Perturbation.step)) s

omit [Scalar R] in
/-- Work on the target alone leaves the engine alone. -/
theorem perform_forEach_onTarget {α : Type} (xs : List α)
    (f : α → Action σ (ApproximationError R) Unit) (d : Driven σ) :
    (Action.forEach xs fun x => onTarget (f x)).perform d =
      (((Action.forEach xs f).perform d.target).1,
        { d with target := ((Action.forEach xs f).perform d.target).2 }) := by
  induction xs generalizing d with
  | nil => rfl
  | cons x rest ih =>
    simp only [Action.forEach, Action.perform_bind, onTarget, Action.perform_on]
    rcases (f x).perform d.target with ⟨_ | _, u⟩
    · rfl
    · exact ih { d with target := u }

/-- What a direction captures is read while the step is announced. -/
theorem find_of_start_capture {owner : String} {perturbations : List (Perturbation R)}
    {of : List String} {s : σ} {d : Driven σ} {out : Table String (List R)}
    (h : (start T owner perturbations >>= fun _ => capture T .all of).perform ⟨idle, s⟩ =
      (.ok out, d)) :
    ∃ read, out = .ofList read ∧ read.map Prod.fst = of ∧ ∀ n ∈ of, ∃ vs,
      T.response (moves perturbations) .complex n .imag (announced T owner perturbations s) =
        .ok vs ∧ Table.find n read = some vs := by
  obtain ⟨⟨⟩, d₁, hstart, hcapture⟩ := Action.bind_eq_ok.1 h
  have hmoves : (Action.forEach (moves perturbations) fun m =>
      T.perturb m.name m.index m.delta).perform (announced T owner perturbations s) =
        (.ok (), d₁.target) := by
    have hs : (Action.forEach perturbations fun p =>
        onTarget (T.perturb p.name p.index (.imag p.step))).perform
          ⟨⟨.perturbed, some s⟩, announced T owner perturbations s⟩ = (.ok (), d₁) := hstart
    rw [perform_forEach_onTarget] at hs
    obtain ⟨ho, rfl⟩ := Prod.mk.inj hs
    rw [moves, Action.forEach_map]
    exact Prod.ext ho rfl
  simp only [capture] at hcapture
  obtain ⟨⟨⟩, d₂, hrequire, hevaluated⟩ := Action.bind_eq_ok.1 hcapture
  obtain ⟨-, rfl⟩ := Prod.mk.inj hrequire
  obtain ⟨⟨⟩, d₃, hevaluate, hreads⟩ := Action.bind_eq_ok.1 hevaluated
  obtain ⟨hvalue, rfl⟩ := Prod.mk.inj hevaluate
  obtain ⟨read, d₄, hread, hphase⟩ := Action.bind_eq_ok.1 hreads
  obtain ⟨hlist, rfl⟩ := Prod.mk.inj hread
  cases hphase
  obtain ⟨hkeys, hfind⟩ := Target.find_of_readAll hlist
  refine ⟨read, rfl, hkeys, fun n hn => ?_⟩
  obtain ⟨vs, hvs, hf⟩ := hfind n hn
  refine ⟨vs, ?_, hf⟩
  have hshift : (T.shift (moves perturbations) .complex).perform
      (announced T owner perturbations s) = (T.evaluate .all .complex).perform d₁.target := by
    rw [Target.shift, Action.perform_bind, hmoves]
  simp only [Target.response, hshift, hvalue]
  exact hvs

/-- **An entry of a complex step** is its response while the step is announced. -/
theorem get?_of_runIdle {owner : String} {perturbations : List (Perturbation R)}
    {of : List String} (hn : of.Nodup) {s u : σ} {out : Table String (List R)}
    (h : (runIdle T owner perturbations .all of).perform s = (.ok out, u))
    {name : String} (hname : name ∈ of) :
    ∃ vs, out.get? name = some vs ∧
      T.response (moves perturbations) .complex name .imag (announced T owner perturbations s) =
        .ok vs := by
  have hrun : (run T owner perturbations .all of).perform ⟨idle, s⟩ =
      (.ok out, ((run T owner perturbations .all of).perform ⟨idle, s⟩).2) :=
    Prod.ext (Prod.mk.inj h).1 rfl
  obtain ⟨captured, d, hattempt, hrest⟩ := Action.bind_eq_ok.1 hrun
  change (finish T >>= fun _ => Action.ofOutcome (.ofExcept captured)).perform d = _ at hrest
  obtain ⟨⟨⟩, e, -, hcaptured⟩ := Action.bind_eq_ok.1 hrest
  obtain rfl := (Outcome.ofExcept_eq_ok _ _).1 (Prod.mk.inj hcaptured).1
  obtain ⟨read, rfl, hkeys, hfind⟩ := find_of_start_capture (Action.attempt_eq_ok.1 hattempt)
  obtain ⟨vs, hresponse, hf⟩ := hfind name hname
  exact ⟨vs, by rw [Table.get?_ofList (hkeys ▸ hn), hf], hresponse⟩

end StepEngine

end Sensitivity
