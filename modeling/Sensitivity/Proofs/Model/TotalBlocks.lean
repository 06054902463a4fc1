import Sensitivity.Proofs.Approximation.Shapes
import Sensitivity.Proofs.Model.Indexing
import Sensitivity.Proofs.Model.Lasting

/-!
# The blocks of total derivatives

Total derivatives hold a block for each requested pair of names
(`Model.blocks_of_computeTotals`). By the chain rule its shape is that of the selected entries of the
two names. A root that approximates its derivatives asks for blocks in the names of the variables that
stand for the requested ones, and reads them back by these names. There each pair has one block, the
one of the last request, so pairs of names that stand for the same two variables all get the block of
the last of them: that of other entries, if these were selected differently
(`Model.exists_misshapen_block`).

After every history the requests that are noted for the root are those of its scheme
(`Model.rooted_of_reaches`), so a scheme that is used again computes blocks of the same shapes.
-/

namespace Sensitivity

variable {R M : Type} [Scalar R] [DirectSolver R]

namespace Model

variable {m : Model R M}

section Rooted

/-- **A root that approximates its derivatives keeps a scheme** with the requests that are noted for
it. -/
theorem rooted_lasting (m : Model R M) :
    m.Lasting fun s => m.root.approximation.isSome → ∃ a, m.Rooted s a where
  toEnduring := enduring_of_noted fun {s t} hs hnoted hroot => by
    obtain ⟨hschemes, hrequests⟩ := Prod.mk.inj hnoted
    obtain ⟨a, ha⟩ := hs hroot
    exact ⟨a, ha.toFurnished, hschemes ▸ ha.place, ha.current, hrequests ▸ ha.requests_eq⟩
  root hroot hs := by
    obtain ⟨a, ha⟩ := hs hroot
    exact ⟨a, congrArg Option.join ha.place⟩
  scheme {s n a b} hs ha hrole hcurrent hroot := by
    obtain ⟨c, hc⟩ := hs hroot
    by_cases hn : n = m.root.number
    · subst hn
      obtain rfl : a = c := Option.some.inj (ha.symm.trans (congrArg Option.join hc.place))
      have hrequests : b.requests = a.requests := congrArg Scheme.Role.requests hrole
      refine ⟨b, ⟨?_, hrequests ▸ hc.valid⟩, ?_, hcurrent hc.current, fun qs hqs => ?_⟩
      · rw [hrole, hrequests, hc.role_eq]
      · exact List.getElem?_set_self (List.getElem?_eq_some_iff.1 hc.place).1
      · exact hrequests.trans (hc.requests_eq qs hqs)
    · refine ⟨c, hc.toFurnished, ?_, hc.current, hc.requests_eq⟩
      exact (List.getElem?_set_ne hn).trans hc.place
  requests {s a b qs} hs ha hadded hroot := by
    obtain ⟨c, hc⟩ := hs hroot
    obtain rfl : a = c := Option.some.inj (ha.symm.trans (congrArg Option.join hc.place))
    rcases Scheme.clearRequests_cases (.empty m.root.label .group m.policy) qs with
      ⟨-, e, he⟩ | hok
    · rw [he] at hadded
      cases hadded
    · obtain ⟨b', hb', hfurnished, hrequests⟩ := hok a hc.toFurnished
      obtain rfl : b = b' := Except.ok.inj (hadded.symm.trans hb')
      refine ⟨b, hfurnished, ?_, hc.current.clearRequests.addRequests hadded, fun qs' hqs' => ?_⟩
      · exact List.getElem?_set_self (List.getElem?_eq_some_iff.1 hc.place).1
      · exact hrequests.trans (Option.some.inj hqs')

/-- The requests that are noted for the root are those of its scheme, after every history. -/
theorem rooted_of_reaches {g : Group R M} {settings : SetupSettings}
    (hbuild : ofGroup g settings = .ok m) {first s : ModelState R M} (hstart : m.start = .ok first)
    {ops : List (Operation R)} (h : m.Reaches first ops s) (hroot : m.root.approximation.isSome) :
    ∃ a, m.Rooted s a :=
  (rooted_lasting m).of_reaches h (fun hroot => rooted_start hbuild hstart hroot) hroot

end Rooted

section Names

/-- The name of the variable that stands for a name. -/
def standsFor (m : Model R M) (name : String) : Option String :=
  (m.effectiveVariable name).toOption.map (·.name)

/-- Of the requested pairs that stand for the same variables as a pair, the last one. -/
def lastAlike (m : Model R M) (of wrt : List (DriverVariable R)) (o w : DriverVariable R) :
    Option (DriverVariable R × DriverVariable R) :=
  ((pairs of wrt).filter fun p =>
    m.standsFor p.1.name = m.standsFor o.name ∧ m.standsFor p.2.name = m.standsFor w.name).getLast?

/-- The pair whose selected entries the block of a pair has: its own by the chain rule, the last one
that stands for the same variables when the root approximates its derivatives. -/
def shapeGiver (m : Model R M) (of wrt : List (DriverVariable R)) (o w : DriverVariable R) :
    Option (DriverVariable R × DriverVariable R) :=
  if m.root.approximation.isSome then m.lastAlike of wrt o w else some (o, w)

omit [Scalar R] [DirectSolver R]

theorem mem_pairs {of wrt : List (DriverVariable R)} {p : DriverVariable R × DriverVariable R} :
    p ∈ pairs of wrt ↔ p.1 ∈ of ∧ p.2 ∈ wrt := by
  obtain ⟨o, w⟩ := p
  simp only [pairs, List.mem_flatMap, List.mem_map, Prod.mk.injEq]
  constructor
  · rintro ⟨o', ho, w', hw, rfl, rfl⟩
    exact ⟨ho, hw⟩
  · rintro ⟨ho, hw⟩
    exact ⟨o, ho, w, hw, rfl, rfl⟩

/-- Pairs of distinct names are distinct. -/
theorem nodup_pairs {α β : Type} {f : DriverVariable R → α} {g : DriverVariable R → β}
    {of wrt : List (DriverVariable R)} (hof : (of.map f).Nodup) (hwrt : (wrt.map g).Nodup) :
    ((pairs of wrt).map fun p => (f p.1, g p.2)).Nodup := by
  have hproduct : (pairs of wrt).map (fun p => (f p.1, g p.2)) = (of.map f).product (wrt.map g) := by
    simp only [pairs, List.product, List.map_flatMap, List.flatMap_map, List.map_map]
    rfl
  rw [hproduct]
  exact hof.product hwrt

/-- Where keys are distinct, an element is the only one with its key. -/
theorem filter_eq_singleton {α β : Type} [DecidableEq β] {f : α → β} {xs : List α}
    (h : (xs.map f).Nodup) {x : α} (hx : x ∈ xs) : xs.filter (fun y => f y = f x) = [x] := by
  obtain ⟨before, after, rfl⟩ := List.append_of_mem hx
  rw [List.map_append, List.map_cons, List.nodup_middle, List.nodup_cons, ← List.map_append] at h
  have hother (y : α) (hy : y ∈ before ++ after) : ¬ f y = f x := fun heq =>
    h.1 (heq ▸ List.mem_map_of_mem hy)
  have hbefore : before.filter (fun y => f y = f x) = [] := List.filter_eq_nil_iff.2 fun y hy => by
    simpa using hother y (List.mem_append_left _ hy)
  have hafter : after.filter (fun y => f y = f x) = [] := List.filter_eq_nil_iff.2 fun y hy => by
    simpa using hother y (List.mem_append_right _ hy)
  rw [List.filter_append, hbefore, List.filter_cons_of_pos (by simp), hafter, List.nil_append]

/-- Where names stand for distinct variables, a pair is the last one like itself. -/
theorem lastAlike_of_nodup {of wrt : List (DriverVariable R)}
    (hof : (of.map fun v => m.standsFor v.name).Nodup)
    (hwrt : (wrt.map fun v => m.standsFor v.name).Nodup) {o w : DriverVariable R} (ho : o ∈ of)
    (hw : w ∈ wrt) : m.lastAlike of wrt o w = some (o, w) := by
  have hfilter := filter_eq_singleton (x := (o, w)) (nodup_pairs hof hwrt) (mem_pairs.2 ⟨ho, hw⟩)
  simp only [Prod.mk.injEq] at hfilter
  rw [lastAlike, hfilter]
  rfl

theorem effectiveVariable_eq_ok {name : String} {v : ModelVariable R} :
    m.effectiveVariable name = .ok v ↔ ∃ id, m.variableTable.indexOf? name = some id ∧
      m.variableAt? (m.effective id) = some v := by
  unfold effectiveVariable variableId
  cases m.variableTable.indexOf? name with
  | none => simp [bind, Except.bind]
  | some id =>
    simp only [bind, Except.bind, Option.some.injEq, exists_eq_left']
    cases m.variableAt? (m.effective id) with
    | none => simp [throw, throwThe, MonadExceptOf.throw]
    | some w => simp [pure, Except.pure]

theorem lookup_eq_ok {name : String} {v : ModelVariable R} :
    m.lookup name = .ok v ↔ m.variableTable.get? name = some v := by
  unfold lookup
  cases m.variableTable.get? name <;> simp

/-- A variable that stands for another one has as many entries. -/
theorem Consistent.size_effective {g : Group R M} (hm : m.Consistent g) {name : String}
    {e v : ModelVariable R} (he : m.effectiveVariable name = .ok e) (hv : m.lookup name = .ok v) :
    e.size = v.size := by
  obtain ⟨id, hid, heffective⟩ := effectiveVariable_eq_ok.1 he
  obtain ⟨id', hid', hat⟩ := Table.get?_eq_some_iff_indexOf?.1 (lookup_eq_ok.1 hv)
  obtain rfl := Option.some.inj (hid.symm.trans hid')
  unfold effective at heffective
  cases hsource : m.source? id with
  | none =>
    rw [hsource] at heffective
    rw [Option.some.inj (heffective.symm.trans hat)]
  | some source =>
    rw [hsource] at heffective
    obtain ⟨v', w, hv', -, hw, -, hsize⟩ := hm.matching source id hsource
    rw [Option.some.inj (heffective.symm.trans hv'), hsize, Option.some.inj (hw.symm.trans hat)]

/-- Variables are found under the names that they have. -/
theorem Consistent.get?_name {g : Group R M} (hm : m.Consistent g) {id : Nat} {v : ModelVariable R}
    (hv : m.variableAt? id = some v) : m.variableTable.get? v.name = some v := by
  obtain ⟨e, he, rfl⟩ := List.mem_map.1 (List.mem_of_getElem? hv)
  rw [← hm.named e he]
  exact (Table.get?_eq_some_iff _ _ _).2 he

end Names

section Selected

variable {g : Group R M}

omit [Scalar R] [DirectSolver R]

/-- The entries that a request selects are those of the driver variable that it was made for. -/
theorem Consistent.selection_of_select (hm : m.Consistent g) {v : DriverVariable R}
    {e : ModelVariable R} (he : m.effectiveVariable v.name = .ok e) {sizes : Sizes}
    (hsizes : ∀ n, sizes.get? e.name = some n → n = e.size) {entries : List Nat}
    (h : Request.select (R := R) e.name v.entries sizes = .ok entries) :
    m.selection v = .ok entries := by
  obtain ⟨u, hu⟩ : ∃ u, m.lookup v.name = .ok u := by
    obtain ⟨id, hid, -⟩ := effectiveVariable_eq_ok.1 he
    obtain ⟨u, hu⟩ := Table.indexOf?_eq_some_iff.1 hid
    exact ⟨u, lookup_eq_ok.2 ((Table.get?_eq_some_iff _ _ _).2 (List.mem_of_getElem? hu))⟩
  have hsize := hm.size_effective he hu
  cases hget : sizes.get? e.name with
  | none => simp [Request.select, hget] at h
  | some n =>
    obtain rfl := hsizes n hget
    rw [hsize] at hget
    unfold Request.select at h
    unfold selection
    rw [hu]
    simp only [hget] at h
    cases hentries : v.entries with
    | none =>
      rw [hentries] at h
      exact congrArg _ (Except.ok.inj h)
    | some is =>
      rw [hentries] at h
      dsimp only at h
      simp only [bind, Except.bind]
      cases hbad : is.find? (u.size ≤ ·) with
      | none =>
        rw [hbad] at h
        exact congrArg _ (Except.ok.inj h)
      | some bad =>
        rw [hbad] at h
        cases h

end Selected

section Requested

/-- Requests for the same entries of the same variables. -/
def Alike (p q : Request R) : Prop :=
  p.of = q.of ∧ p.wrt = q.wrt ∧ p.ofEntries = q.ofEntries ∧ p.wrtEntries = q.wrtEntries

omit [DirectSolver R] in
theorem forall₂_alike_of_beq {ps qs : List (Request R)} (h : (ps == qs) = true) :
    List.Forall₂ Alike ps qs := by
  induction ps generalizing qs with
  | nil =>
    cases qs with
    | nil => exact .nil
    | cons q qs => cases h
  | cons p ps ih =>
    cases qs with
    | nil => cases h
    | cons q qs =>
      obtain ⟨hpq, hrest⟩ := Bool.and_eq_true_iff.1 h
      have hpq : (p.of == q.of && p.wrt == q.wrt && p.settings == q.settings &&
        p.pattern == q.pattern && p.ofEntries == q.ofEntries && p.wrtEntries == q.wrtEntries &&
          p.everything == q.everything) = true := hpq
      simp only [Bool.and_eq_true, beq_iff_eq] at hpq
      obtain ⟨⟨⟨⟨⟨⟨hof, hwrt⟩, -⟩, -⟩, hofEntries⟩, hwrtEntries⟩, -⟩ := hpq
      exact .cons ⟨hof, hwrt, hofEntries, hwrtEntries⟩ (ih hrest)

/-- The scheme that the root is given has the requests of the computation, and a current plan. -/
theorem requests_of_prepareRoot {a b : Scheme R} {s t : ModelState R M} (ha : m.Rooted s a)
    {requests : List (Request R)} (h : (m.prepareRoot a requests).perform s = (.ok b, t)) :
    b.Current (m.groupTarget m.root m.schedule) ∧ List.Forall₂ Alike b.requests requests := by
  unfold prepareRoot at h
  rw [Action.perform_get_bind] at h
  split at h
  · rename_i hsame
    cases h
    refine ⟨ha.current, ?_⟩
    cases hnoted : s.rootRequests with
    | none =>
      rw [hnoted] at hsame
      cases hsame
    | some qs =>
      rw [hnoted] at hsame
      rw [ha.requests_eq qs hnoted]
      exact forall₂_alike_of_beq hsame
  · obtain ⟨b', hb', h⟩ := Action.ofOutcome_bind_eq_ok.1 h
    obtain ⟨_, t', -, h⟩ := Action.bind_eq_ok.1 h
    cases h
    rw [Outcome.mapError_eq_ok, Outcome.ofExcept_eq_ok] at hb'
    have hrequests : b.requests = requests :=
      congrArg Scheme.Role.requests (Scheme.role_of_addRequests hb')
    refine ⟨ha.current.clearRequests.addRequests hb', ?_⟩
    rw [hrequests]
    exact List.forall₂_same.2 fun _ _ => ⟨rfl, rfl, rfl, rfl⟩

omit [DirectSolver R] [Scalar R] in
/-- Requests for pairs of names ask for the variables that stand for them. -/
theorem forall₂_of_totalRequests {of wrt : List (DriverVariable R)} {settings : Settings R}
    {requests : List (Request R)} (h : m.totalRequests of wrt settings = .ok requests) :
    List.Forall₂ (fun p q => ∃ o w, m.effectiveVariable p.1.name = .ok o ∧
      m.effectiveVariable p.2.name = .ok w ∧ q = { Request.whole o.name w.name settings with
        ofEntries := p.1.entries, wrtEntries := p.2.entries }) (pairs of wrt) requests := by
  refine (Except.mapM_eq_ok.1 h).imp fun p q hq => ?_
  obtain ⟨o, ho, hq⟩ := Except.bind_eq_ok.1 hq
  obtain ⟨w, hw, hq⟩ := Except.bind_eq_ok.1 hq
  exact ⟨o, w, ho, hw, (Except.ok.inj hq).symm⟩

omit [DirectSolver R] [Scalar R] in
/-- A request is made for a pair of driver variables. -/
theorem mem_totalRequests {of wrt : List (DriverVariable R)} {settings : Settings R}
    {requests : List (Request R)} (h : m.totalRequests of wrt settings = .ok requests)
    {q : Request R} : q ∈ requests ↔ ∃ o ∈ of, ∃ w ∈ wrt, ∃ v u, m.effectiveVariable o.name = .ok v ∧
      m.effectiveVariable w.name = .ok u ∧ q = { Request.whole v.name u.name settings with
        ofEntries := o.entries, wrtEntries := w.entries } := by
  have hall := forall₂_of_totalRequests h
  constructor
  · intro hq
    obtain ⟨p, hp, hrequest⟩ := exists_of_forall₂ hall hq
    obtain ⟨ho, hw⟩ := mem_pairs.1 hp
    exact ⟨_, ho, _, hw, hrequest⟩
  · rintro ⟨o, ho, w, hw, v, u, hv, hu, rfl⟩
    obtain ⟨q, hq, v', u', hv', hu', rfl⟩ :=
      exists_of_forall₂ hall.flip (mem_pairs (p := (o, w)).2 ⟨ho, hw⟩)
    obtain rfl := Except.ok.inj (hv.symm.trans hv')
    obtain rfl := Except.ok.inj (hu.symm.trans hu')
    exact hq

omit [DirectSolver R] [Scalar R] in
theorem standsFor_eq {name : String} {v : ModelVariable R} (h : m.effectiveVariable name = .ok v) :
    m.standsFor name = some v.name := by
  rw [standsFor, h]
  rfl

omit [DirectSolver R] [Scalar R] in
/-- Where names stand for distinct variables, requests ask for distinct pairs of variables. -/
theorem nodup_of_totalRequests {of wrt : List (DriverVariable R)} {settings : Settings R}
    {requests : List (Request R)} (h : m.totalRequests of wrt settings = .ok requests)
    (hof : (of.map fun v => m.standsFor v.name).Nodup)
    (hwrt : (wrt.map fun v => m.standsFor v.name).Nodup) :
    (requests.map fun q => (q.of, q.wrt)).Nodup := by
  have hnames : (requests.map fun q => (q.of, q.wrt)).map (Prod.map some some) =
      (pairs of wrt).map fun p => (m.standsFor p.1.name, m.standsFor p.2.name) := by
    rw [List.map_map]
    symm
    rw [← List.forall₂_eq_eq_eq, List.forall₂_map_left_iff, List.forall₂_map_right_iff]
    refine (forall₂_of_totalRequests h).imp fun p q hq => ?_
    obtain ⟨v, u, hv, hu, rfl⟩ := hq
    rw [standsFor_eq hv, standsFor_eq hu]
    rfl
  exact List.Nodup.of_map _ (hnames ▸ nodup_pairs hof hwrt)

/-- The sizes at which a group approximates are those of its variables. -/
theorem get?_of_sizes {g : ModelGroup R} {body : Schedule R} {a : Scheme R} {s : ModelState R M}
    {sizes : Sizes} (h : a.sizes (m.groupTarget g body) s = .ok sizes) {name : String} {n : Nat}
    (hn : sizes.get? name = some n) : ∃ v, m.variableTable.get? name = some v ∧ n = v.size := by
  obtain ⟨v, hv, hsize⟩ := Except.bind_eq_ok.1 (Scheme.size_of_sizes h hn)
  exact ⟨v, (Outcome.expect_eq_ok _ _ _).1 hv, (Except.ok.inj hsize).symm⟩

/-- At these sizes a variable that stands for a name has as many entries as it has. -/
theorem Consistent.size_of_sizes {group : Group R M} (hm : m.Consistent group) {g : ModelGroup R}
    {body : Schedule R} {a : Scheme R} {s : ModelState R M} {sizes : Sizes}
    (h : a.sizes (m.groupTarget g body) s = .ok sizes) {name : String} {v : ModelVariable R}
    (hv : m.effectiveVariable name = .ok v) {n : Nat} (hn : sizes.get? v.name = some n) :
    n = v.size := by
  obtain ⟨v', hv', rfl⟩ := get?_of_sizes h hn
  obtain ⟨id, -, hid⟩ := effectiveVariable_eq_ok.1 hv
  rw [Option.some.inj (hv'.symm.trans (hm.get?_name hid))]

end Requested

section Approximated

variable {g : Group R M}

omit [DirectSolver R] [Scalar R] in
theorem forall₂_comp {α β γ : Type} {P : α → β → Prop} {Q : β → γ → Prop} {xs : List α}
    {ys : List β} {zs : List γ} (h : List.Forall₂ P xs ys) (h' : List.Forall₂ Q ys zs) :
    List.Forall₂ (fun x z => ∃ y, P x y ∧ Q y z) xs zs := by
  induction h generalizing zs with
  | nil =>
    cases h'
    exact .nil
  | cons hxy _ ih =>
    cases h' with
    | cons hyz hrest => exact .cons ⟨_, hxy, hyz⟩ (ih hrest)

omit [DirectSolver R] [Scalar R] in
theorem forall₂_zip_left {α β : Type} {P : α → β → Prop} {xs : List α} {ys : List β}
    (h : List.Forall₂ P xs ys) : List.Forall₂ (fun x y => y.1 = x ∧ P x y.2) xs (xs.zip ys) := by
  induction h with
  | nil => exact .nil
  | cons hxy _ ih => exact .cons ⟨rfl, hxy⟩ ih

omit [DirectSolver R] [Scalar R] in
/-- Lists that correspond element by element end alike. -/
theorem getLast?_of_forall₂ {α β : Type} {P : α → β → Prop} {xs : List α} {ys : List β}
    (h : List.Forall₂ P xs ys) {y : β} (hy : ys.getLast? = some y) :
    ∃ x, xs.getLast? = some x ∧ P x y := by
  rw [← List.forall₂_reverse_iff] at h
  rw [← List.head?_reverse] at hy ⊢
  generalize xs.reverse = xs at h ⊢
  generalize ys.reverse = ys at h hy
  cases h with
  | nil => cases hy
  | cons hxy _ =>
    cases hy
    exact ⟨_, rfl, hxy⟩

/-- A pair of driver variables, and the block that the root stores for it. -/
def StoredFor (m : Model R M) (p : DriverVariable R × DriverVariable R)
    (e : (String × String) × Block R) : Prop :=
  ∃ o w rows cols, m.effectiveVariable p.1.name = .ok o ∧ m.effectiveVariable p.2.name = .ok w ∧
    e.1 = (o.name, w.name) ∧ m.selection p.1 = .ok rows ∧ m.selection p.2 = .ok cols ∧
      e.2.rows = rows.length ∧ e.2.cols = cols.length

/-- **The root stores a block for each pair in turn**, in the shape of its selected entries. -/
theorem Consistent.forall₂_storedFor (hm : m.Consistent g) {s t : ModelState R M} {a : Scheme R}
    {blocks : Jacobian R} {of wrt : List (DriverVariable R)} {settings : Settings R}
    {requests : List (Request R)} (hrequests : m.totalRequests of wrt settings = .ok requests)
    (ha : a.Current (m.groupTarget m.root m.schedule))
    (halike : List.Forall₂ Alike a.requests requests)
    (h : (m.approximateGroup m.root m.schedule a).perform s = (.ok blocks, t)) :
    ∃ es, blocks = .ofList es ∧ List.Forall₂ m.StoredFor (pairs of wrt) es := by
  have hperform : ((Scheme.computeJacobian (m.groupTarget m.root m.schedule)).perform
      ⟨a, .empty, s⟩).1 = .ok blocks := (Outcome.mapError_eq_ok _ _ _).1 (congrArg Prod.fst h)
  obtain ⟨sizes, es, hsizes, hblocks, hshapes⟩ :=
    Scheme.shapes_of_computeJacobian (w := ⟨a, .empty, s⟩) ha (Action.perform_eq_ok hperform)
  refine ⟨es, hblocks, ?_⟩
  refine (forall₂_comp (forall₂_of_totalRequests hrequests)
    (forall₂_comp halike.flip hshapes)).imp fun p e hp => ?_
  obtain ⟨q, ⟨o, w, ho, hw, rfl⟩, q', ⟨hof, hwrt, hofEntries, hwrtEntries⟩, he, hshape⟩ := hp
  obtain ⟨rows, hrows, hshape⟩ := Except.bind_eq_ok.1 hshape
  obtain ⟨cols, hcols, hshape⟩ := Except.bind_eq_ok.1 hshape
  obtain ⟨hrowsLength, hcolsLength⟩ := Prod.mk.inj (Except.ok.inj hshape)
  rw [Request.rows, hof, hofEntries] at hrows
  rw [Request.cols, hwrt, hwrtEntries] at hcols
  exact ⟨o, w, rows, cols, ho, hw, by rw [he, hof, hwrt]; rfl,
    hm.selection_of_select ho (fun _ => hm.size_of_sizes hsizes ho) hrows,
    hm.selection_of_select hw (fun _ => hm.size_of_sizes hsizes hw) hcols,
    hrowsLength.symm, hcolsLength.symm⟩

omit [DirectSolver R] in
theorem eq_of_namedBlock {blocks : Jacobian R} {names : DriverVariable R × DriverVariable R}
    {q : Request R} {y : (String × String) × DenseMatrix R} {s t : ModelState R M}
    (h : (namedBlock blocks names q).perform s = (.ok y, t)) :
    y.1 = (names.1.name, names.2.name) ∧
      ∃ block, blocks.get? (q.of, q.wrt) = some block ∧ block.toDense? = some y.2 := by
  unfold namedBlock at h
  dsimp only at h
  split at h
  · rename_i block hblock
    obtain ⟨d, hd, h⟩ := Action.ofOutcome_bind_eq_ok.1 h
    cases h
    exact ⟨rfl, block, hblock, (Outcome.ofOption_eq_ok _ _).1 hd⟩
  · cases h

omit [DirectSolver R] [Scalar R] in
/-- **Of the blocks that are stored for a pair of variables, the one of the last pair of names
stays.** -/
theorem exists_lastAlike {of wrt : List (DriverVariable R)} {es : List ((String × String) × Block R)}
    (h : List.Forall₂ m.StoredFor (pairs of wrt) es) {o w : DriverVariable R} {v u : ModelVariable R}
    (ho : m.effectiveVariable o.name = .ok v) (hw : m.effectiveVariable w.name = .ok u)
    {block : Block R} (hblock : (Table.ofList es).get? (v.name, u.name) = some block) :
    ∃ p rows cols, m.lastAlike of wrt o w = some p ∧ m.selection p.1 = .ok rows ∧
      m.selection p.2 = .ok cols ∧ block.rows = rows.length ∧ block.cols = cols.length := by
  rw [Table.get?_ofList_eq_getLast] at hblock
  obtain ⟨e, he, rfl⟩ := Option.map_eq_some_iff.1 hblock
  have hfiltered := List.rel_filter (R := m.StoredFor)
    (p := fun p => m.standsFor p.1.name = m.standsFor o.name ∧
      m.standsFor p.2.name = m.standsFor w.name) (q := fun e => e.1 = (v.name, u.name))
    (fun p e hp => ?_) h
  · obtain ⟨p, hp, o', w', rows, cols, -, -, -, hrows, hcols, hshape⟩ :=
      getLast?_of_forall₂ hfiltered he
    exact ⟨p, rows, cols, hp, hrows, hcols, hshape⟩
  · obtain ⟨o', w', rows, cols, ho', hw', he, -⟩ := hp
    simp only [standsFor_eq ho, standsFor_eq hw, standsFor_eq ho', standsFor_eq hw', he,
      decide_eq_true_eq, Option.some.injEq, Prod.mk.injEq]

/-- **Total derivatives of a root that approximates them** are the matrices of the blocks that it
approximates, read in the names of the variables that stand for a pair. -/
theorem approximatedTotals_eq_ok {s t : ModelState R M} {a : Scheme R} (ha : m.Rooted s a)
    {of wrt : List (DriverVariable R)} {settings : Settings R} {totals : Totals R}
    (hof : (of.map (·.name)).Nodup) (hwrt : (wrt.map (·.name)).Nodup)
    (h : (m.approximatedTotals of wrt settings).perform s = (.ok totals, t)) :
    ∃ requests b s' blocks t', m.totalRequests of wrt settings = .ok requests ∧
      (m.prepareRoot a requests).perform s = (.ok b, s') ∧
      (m.approximateGroup m.root m.schedule b).perform s' = (.ok blocks, t') ∧
      ∀ o ∈ of, ∀ w ∈ wrt, ∃ v u block dense, m.effectiveVariable o.name = .ok v ∧
        m.effectiveVariable w.name = .ok u ∧ blocks.get? (v.name, u.name) = some block ∧
        block.toDense? = some dense ∧ totals.get? (o.name, w.name) = some dense := by
  obtain ⟨requests, hrequests, h⟩ := Action.ofOutcome_bind_eq_ok.1 h
  rw [Action.perform_get_bind] at h
  obtain ⟨b, s₁, hprepare, h⟩ := Action.bind_eq_ok.1 h
  obtain ⟨blocks, s₂, hblocks, h⟩ := Action.bind_eq_ok.1 h
  obtain ⟨found, s₃, hfound, h⟩ := Action.bind_eq_ok.1 h
  cases h
  rw [Outcome.ofExcept_eq_ok] at hrequests
  rw [ha.place] at hprepare
  refine ⟨requests, b, s₁, blocks, s₂, hrequests, hprepare, hblocks, fun o ho w hw => ?_⟩
  have hnamed := forall₂_comp (forall₂_zip_left (forall₂_of_totalRequests hrequests))
    (Action.forall₂_of_mapM hfound)
  have hkeys : (pairs of wrt).map (fun p => (p.1.name, p.2.name)) = found.map Prod.fst := by
    rw [← List.forall₂_eq_eq_eq, List.forall₂_map_left_iff, List.forall₂_map_right_iff]
    refine hnamed.imp fun p y hp => ?_
    obtain ⟨x, ⟨rfl, -⟩, _, _, hx⟩ := hp
    exact (eq_of_namedBlock hx).1.symm
  have hnodup := nodup_pairs hof hwrt
  rw [hkeys] at hnodup
  obtain ⟨i, hi, hget⟩ := List.getElem_of_mem (mem_pairs (p := (o, w)).2 ⟨ho, hw⟩)
  have hi' : i < found.length := hnamed.length_eq ▸ hi
  obtain ⟨x, ⟨hx, v, u, hv, hu, hq⟩, _, _, hperform⟩ := hnamed.get hi hi'
  obtain ⟨hkey, block, hblock, hdense⟩ := eq_of_namedBlock hperform
  rw [List.get_eq_getElem, hget] at hx hv hu
  rw [hx] at hkey
  rw [hq] at hblock
  refine ⟨v, u, block, _, hv, hu, hblock, hdense, ?_⟩
  rw [Table.get?_ofList hnodup]
  exact Table.find_of_mem hnodup (hkey ▸ List.getElem_mem hi')

/-- **The root gives each pair the block of the last pair like it.** -/
theorem Consistent.blocks_of_approximatedTotals (hm : m.Consistent g) {s t : ModelState R M}
    (hroot : ∃ a, m.Rooted s a) {of wrt : List (DriverVariable R)} {settings : Settings R}
    {totals : Totals R} (hof : (of.map (·.name)).Nodup) (hwrt : (wrt.map (·.name)).Nodup)
    (h : (m.approximatedTotals of wrt settings).perform s = (.ok totals, t))
    {o w : DriverVariable R} (ho : o ∈ of) (hw : w ∈ wrt) :
    ∃ block p rows cols, totals.get? (o.name, w.name) = some block ∧
      m.lastAlike of wrt o w = some p ∧ m.selection p.1 = .ok rows ∧ m.selection p.2 = .ok cols ∧
        block.rows = rows.length ∧ block.cols = cols.length := by
  obtain ⟨a, ha⟩ := hroot
  obtain ⟨requests, b, s₁, blocks, s₂, hrequests, hprepare, hblocks, hnamed⟩ :=
    approximatedTotals_eq_ok ha hof hwrt h
  obtain ⟨hcurrent, halike⟩ := requests_of_prepareRoot ha hprepare
  obtain ⟨es, rfl, hstored⟩ := hm.forall₂_storedFor hrequests hcurrent halike hblocks
  obtain ⟨v, u, block, dense, hv, hu, hblock, hdense, htotals⟩ := hnamed o ho w hw
  obtain ⟨p, rows, cols, hp, hrows, hcols, hshape⟩ := exists_lastAlike hstored hv hu hblock
  obtain ⟨hdrows, hdcols⟩ := Block.shape_of_toDense hdense
  exact ⟨dense, p, rows, cols, htotals, hp, hrows, hcols, hdrows.trans hshape.1,
    hdcols.trans hshape.2⟩

end Approximated

section Chain

/-- The number, the variable and the selected entries that stand for a driver variable. -/
def Identified (m : Model R M) (v : DriverVariable R) (x : Nat × ModelVariable R × List Nat) : Prop :=
  ∃ id, m.variableId v.name = .ok id ∧ x.1 = m.effective id ∧
    m.effectiveVariable v.name = .ok x.2.1 ∧ m.selection v = .ok x.2.2

/-- Driver variables with the columns of the solution that belong to them, from a first column on. -/
def withColumns : List (DriverVariable R × Nat × ModelVariable R × List Nat) → Nat →
    List (DriverVariable R × Nat × List Nat × Nat)
  | [], _ => []
  | (w, id, _, entries) :: rest, col =>
    (w, id, entries, col) :: withColumns rest (col + entries.length)

omit [DirectSolver R] [Scalar R] in
theorem foldl_eq_withColumns (designs : List (DriverVariable R × Nat × ModelVariable R × List Nat))
    (found : List (DriverVariable R × Nat × List Nat × Nat)) (col : Nat) :
    (designs.foldl (fun (found, col) (w, id, _, entries) =>
      (found ++ [(w, id, entries, col)], col + entries.length)) (found, col)).1 =
        found ++ withColumns designs col := by
  induction designs generalizing found col with
  | nil => exact (List.append_nil _).symm
  | cons x rest ih => exact (ih _ _).trans (by simp [withColumns])

/-- The columns of the right-hand side. -/
def seeds (m : Model R M) (blocks : List (LinkBlock R))
    (designs : List (Nat × ModelVariable R × List Nat)) : DenseMatrix R :=
  let columns := designs.flatMap fun (id, v, entries) => entries.map (m.seedColumn blocks id v)
  .tabulate m.outputLength columns.length fun r c => (columns[c]?.map fun column => column r).getD 0

/-- The blocks of all pairs, read off the solution. -/
def readBlocks (of wrt : List (DriverVariable R))
    (responses designs : List (Nat × ModelVariable R × List Nat)) (x : DenseMatrix R) :
    List ((String × String) × DenseMatrix R) :=
  (of.zip responses).flatMap fun (o, id, v, rows) =>
    (withColumns (wrt.zip designs) 0).map fun (w, wid, cols, col) =>
      ((o.name, w.name), totalBlock x (id, v) rows wid cols col)

/-- **Total derivatives by the chain rule** solve a system for the collected blocks. -/
theorem chainRuleTotals_eq_ok {of wrt : List (DriverVariable R)} {s t : ModelState R M}
    {totals : Totals R} (h : (m.chainRuleTotals of wrt).perform s = (.ok totals, t)) :
    ∃ responses designs reached reaching blocks x, List.Forall₂ m.Identified of responses ∧
      List.Forall₂ m.Identified wrt designs ∧
      m.graph.reachableFrom? (designs.map (·.1)) = some reached ∧
      m.graph.reaching? (responses.map (·.1)) = some reaching ∧
      (m.collectBlocks reached reaching m.schedule).perform s = (.ok blocks, t) ∧
      solveSystem (m.chainMatrix blocks) (m.seeds blocks designs) = .ok x ∧
      totals = .ofList (readBlocks of wrt responses designs x) := by
  unfold chainRuleTotals at h
  obtain ⟨responses, s₁, hresponses, h⟩ := Action.bind_eq_ok.1 h
  obtain ⟨designs, s₂, hdesigns, h⟩ := Action.bind_eq_ok.1 h
  obtain ⟨reached, hreached, h⟩ := Action.ofOutcome_bind_eq_ok.1 h
  obtain ⟨reaching, hreaching, h⟩ := Action.ofOutcome_bind_eq_ok.1 h
  obtain ⟨blocks, s₃, hblocks, h⟩ := Action.bind_eq_ok.1 h
  obtain ⟨x, hx, h⟩ := Action.ofOutcome_bind_eq_ok.1 h
  cases h
  rw [Action.mapM_ofOutcome] at hresponses hdesigns
  obtain ⟨hof, rfl⟩ := Prod.mk.inj hresponses
  obtain ⟨hwrt, rfl⟩ := Prod.mk.inj hdesigns
  have hidentify {vs : List (DriverVariable R)} {xs : List (Nat × ModelVariable R × List Nat)}
      (hxs : vs.mapM (fun v => Outcome.ofExcept do
        let id := m.effective (← m.variableId v.name)
        return (id, ← m.effectiveVariable v.name, ← m.selection v)) = .ok xs) :
      List.Forall₂ m.Identified vs xs := by
    refine (Except.mapM_eq_ok.1 hxs).imp fun v x hx => ?_
    obtain ⟨id, hid, hx⟩ := Except.bind_eq_ok.1 ((Outcome.ofExcept_eq_ok _ _).1 hx)
    obtain ⟨w, hw, hx⟩ := Except.bind_eq_ok.1 hx
    obtain ⟨entries, hentries, hx⟩ := Except.bind_eq_ok.1 hx
    cases hx
    exact ⟨id, hid, rfl, hw, hentries⟩
  refine ⟨responses, designs, reached, reaching, blocks, x, hidentify hof, hidentify hwrt,
    (Outcome.ofOption_eq_ok _ _).1 hreached, (Outcome.ofOption_eq_ok _ _).1 hreaching, hblocks, ?_, ?_⟩
  · rw [Outcome.mapError_eq_ok, Outcome.ofExcept_eq_ok] at hx
    exact hx
  · simp only [readBlocks, foldl_eq_withColumns, List.nil_append]

/-- The number of columns that belong to some design variables. -/
def columnCount (designs : List (Nat × ModelVariable R × List Nat)) : Nat :=
  (designs.map fun d => d.2.2.length).sum

omit [Scalar R] in
theorem solveSystem_eq_ok {a b x : DenseMatrix R} : solveSystem a b = .ok x ↔
    a.rows = a.cols ∧ a.rows = b.rows ∧ DirectSolver.solve a b = some x := by
  unfold solveSystem
  split
  · simp [*]
  split
  · simp [*]
  cases hsolve : DirectSolver.solve a b <;> simp_all

omit [DirectSolver R] in
/-- The right-hand side has a column for each selected entry of each design variable. -/
theorem column_seeds {blocks : List (LinkBlock R)}
    {designs before after : List (Nat × ModelVariable R × List Nat)}
    {design : Nat × ModelVariable R × List Nat} (hcut : designs = before ++ design :: after)
    {k i : Nat} (hk : design.2.2[k]? = some i) :
    columnCount before + k < (m.seeds blocks designs).cols ∧
      (m.seeds blocks designs).column (columnCount before + k) =
        (List.range m.outputLength).map (m.seedColumn blocks design.1 design.2.1 i) := by
  let columns := designs.flatMap fun d => d.2.2.map (m.seedColumn blocks d.1 d.2.1)
  have hlength : (before.flatMap fun d => d.2.2.map (m.seedColumn blocks d.1 d.2.1)).length =
      columnCount before := by
    simp only [columnCount, List.length_flatMap, List.length_map]
  have hcolumn : columns[columnCount before + k]? =
      some (m.seedColumn blocks design.1 design.2.1 i) := by
    have hlt : k < (design.2.2.map (m.seedColumn blocks design.1 design.2.1)).length := by
      rw [List.length_map]
      exact (List.getElem?_eq_some_iff.1 hk).1
    simp only [columns, hcut, List.flatMap_append, List.flatMap_cons]
    rw [List.getElem?_append_right (by omega), hlength, Nat.add_sub_cancel_left,
      List.getElem?_append_left hlt, List.getElem?_map, hk, Option.map_some]
  have hlt : columnCount before + k < columns.length := (List.getElem?_eq_some_iff.1 hcolumn).1
  refine ⟨hlt, List.map_congr_left fun r hr => ?_⟩
  refine (DenseMatrix.entry_tabulate _ (List.mem_range.1 hr) hlt).trans ?_
  rw [hcolumn, Option.map_some, Option.getD_some]

/-- The block of a pair of names is read off the rows of the response and the columns of the design
variable, which come behind those of the design variables before it. -/
def ReadFrom (m : Model R M) (designs : List (Nat × ModelVariable R × List Nat)) (x : DenseMatrix R)
    (p : DriverVariable R × DriverVariable R) (e : (String × String) × DenseMatrix R) : Prop :=
  ∃ response before design after, m.Identified p.1 response ∧ m.Identified p.2 design ∧
    designs = before ++ design :: after ∧ e = ((p.1.name, p.2.name),
      totalBlock x (response.1, response.2.1) response.2.2 design.1 design.2.2 (columnCount before))

omit [DirectSolver R] [Scalar R] in
/-- The columns of a design variable come behind those of the ones before it. -/
theorem forall₂_withColumns {wrt : List (DriverVariable R)}
    {designs : List (Nat × ModelVariable R × List Nat)}
    (hdesigns : List.Forall₂ m.Identified wrt designs)
    (front : List (Nat × ModelVariable R × List Nat)) :
    List.Forall₂ (fun w y => ∃ before design after, m.Identified w design ∧
      front ++ designs = before ++ design :: after ∧
        y = (w, design.1, design.2.2, columnCount before))
      wrt (withColumns (wrt.zip designs) (columnCount front)) := by
  induction hdesigns generalizing front with
  | nil => exact .nil
  | @cons w design wrt designs hw _ ih =>
    have hcount : columnCount (front ++ [design]) = columnCount front + design.2.2.length := by
      simp [columnCount]
    have hrest := ih (front ++ [design])
    rw [hcount, List.append_assoc, List.singleton_append] at hrest
    exact .cons ⟨front, design, designs, hw, rfl, rfl⟩ hrest

omit [DirectSolver R] in
/-- **The blocks of all pairs**, in the order of the pairs. -/
theorem forall₂_readBlocks {of wrt : List (DriverVariable R)}
    {responses designs : List (Nat × ModelVariable R × List Nat)}
    (hresponses : List.Forall₂ m.Identified of responses)
    (hdesigns : List.Forall₂ m.Identified wrt designs) (x : DenseMatrix R) :
    List.Forall₂ (m.ReadFrom designs x) (pairs of wrt) (readBlocks of wrt responses designs x) := by
  refine List.rel_flatMap (forall₂_zip_left hresponses) fun o z hz => ?_
  obtain ⟨rfl, hresponse⟩ := hz
  rw [List.forall₂_map_left_iff, List.forall₂_map_right_iff]
  refine (forall₂_withColumns hdesigns []).imp fun w y hy => ?_
  obtain ⟨before, design, after, hw, hcut, rfl⟩ := hy
  exact ⟨z.2, before, design, after, hresponse, hw, hcut, rfl⟩

omit [DirectSolver R] in
/-- The block of a pair, where no other pair has its names. -/
theorem exists_get?_readBlocks {of wrt : List (DriverVariable R)}
    {responses designs : List (Nat × ModelVariable R × List Nat)}
    (hresponses : List.Forall₂ m.Identified of responses)
    (hdesigns : List.Forall₂ m.Identified wrt designs) (hof : (of.map (·.name)).Nodup)
    (hwrt : (wrt.map (·.name)).Nodup) {o w : DriverVariable R} (ho : o ∈ of) (hw : w ∈ wrt)
    (x : DenseMatrix R) : ∃ block, m.ReadFrom designs x (o, w) ((o.name, w.name), block) ∧
      (Table.ofList (readBlocks of wrt responses designs x)).get? (o.name, w.name) = some block := by
  have hread := forall₂_readBlocks hresponses hdesigns x
  have hkeys : (pairs of wrt).map (fun p => (p.1.name, p.2.name)) =
      (readBlocks of wrt responses designs x).map Prod.fst := by
    rw [← List.forall₂_eq_eq_eq, List.forall₂_map_left_iff, List.forall₂_map_right_iff]
    refine hread.imp fun p e he => ?_
    obtain ⟨_, _, _, _, -, -, -, rfl⟩ := he
    rfl
  have hnodup := nodup_pairs hof hwrt
  rw [hkeys] at hnodup
  obtain ⟨i, hi, hget⟩ := List.getElem_of_mem (mem_pairs (p := (o, w)).2 ⟨ho, hw⟩)
  have hi' : i < (readBlocks of wrt responses designs x).length := hread.length_eq ▸ hi
  have hentry := hread.get hi hi'
  rw [List.get_eq_getElem, List.get_eq_getElem, hget] at hentry
  obtain ⟨_, _, _, _, -, -, -, hkey⟩ := id hentry
  have hmem := List.getElem_mem hi'
  rw [hkey] at hentry hmem
  exact ⟨_, hentry, (Table.get?_ofList hnodup _).trans (Table.find_of_mem hnodup hmem)⟩

end Chain

/-- Total derivatives are those that the root approximates, or those of the chain rule. -/
theorem perform_of_computeTotals {of wrt : List (DriverVariable R)} {s t : ModelState R M}
    {totals : Totals R} (h : (m.computeTotals of wrt).perform s = (.ok totals, t)) :
    (match m.root.approximation with
      | some settings => m.approximatedTotals of wrt settings
      | none => m.chainRuleTotals of wrt).perform s = (.ok totals, t) := by
  unfold computeTotals at h
  dsimp only at h
  split at h
  · obtain ⟨_, _, hfail, -⟩ := Action.bind_eq_ok.1 h
    cases hfail
  obtain ⟨_, s', hselections, hperform⟩ := Action.bind_eq_ok.1 h
  have hkeeps : (Action.forEach (of ++ wrt) fun v => do
      discard <| Action.ofOutcome (.ofExcept (m.selection v)) : ModelWork R M Unit).Keeps id :=
    fun _ => Action.preserves_forEach fun _ => Action.preserves_discard
      (Action.preserves_ofOutcome _)
  have hkept := hkeeps s s rfl
  rw [hselections] at hkept
  obtain rfl : s' = s := hkept (Outcome.answers_ok _)
  exact hperform

/-- **Total derivatives hold a block for each requested pair of names.** Whatever was done before,
whatever names are asked for, and whether or not the root approximates: the block of a pair has a row
for each selected entry of the first and a column for each selected entry of the second one. The only
exception are pairs that a root approximates and whose names stand for the variables of other pairs
as well: these have the shape of the last of them. -/
theorem blocks_of_computeTotals {g : Group R M} {settings : SetupSettings}
    (hbuild : ofGroup g settings = .ok m) {first s t : ModelState R M}
    (hstart : m.start = .ok first) {ops : List (Operation R)} (hs : m.Reaches first ops s)
    {of wrt : List (DriverVariable R)} (hof : (of.map (·.name)).Nodup)
    (hwrt : (wrt.map (·.name)).Nodup) {totals : Totals R}
    (h : (m.computeTotals of wrt).perform s = (.ok totals, t)) {o w : DriverVariable R}
    (ho : o ∈ of) (hw : w ∈ wrt) :
    ∃ block p rows cols, totals.get? (o.name, w.name) = some block ∧
      m.shapeGiver of wrt o w = some p ∧ m.selection p.1 = .ok rows ∧ m.selection p.2 = .ok cols ∧
      block.rows = rows.length ∧ block.cols = cols.length ∧
      (m.root.approximation = none ∨ (of.map fun v => m.standsFor v.name).Nodup ∧
        (wrt.map fun v => m.standsFor v.name).Nodup → p = (o, w)) := by
  have hm := consistent_of_ofGroup hbuild
  have hperform := perform_of_computeTotals h
  split at hperform
  · rename_i settings hroot
    have hsome : m.root.approximation.isSome := by rw [hroot]; rfl
    obtain ⟨block, p, rows, cols, hblock, hp, hrows, hcols, hshape⟩ :=
      hm.blocks_of_approximatedTotals (rooted_of_reaches hbuild hstart hs hsome) hof hwrt
        hperform ho hw
    refine ⟨block, p, rows, cols, hblock, ?_, hrows, hcols, hshape.1, hshape.2, ?_⟩
    · rw [shapeGiver, if_pos hsome, hp]
    · rintro (hnone | ⟨hofs, hwrts⟩)
      · cases hroot.symm.trans hnone
      · exact Option.some.inj (hp.symm.trans (lastAlike_of_nodup hofs hwrts ho hw))
  · rename_i hroot
    obtain ⟨responses, designs, reached, reaching, blocks, x, hresponses, hdesigns, -, -, -, -,
      rfl⟩ := chainRuleTotals_eq_ok hperform
    obtain ⟨block, hread, hblock⟩ := exists_get?_readBlocks hresponses hdesigns hof hwrt ho hw x
    obtain ⟨response, before, design, after, ⟨-, -, -, -, hrows⟩, ⟨-, -, -, -, hcols⟩, -, hread⟩ :=
      hread
    obtain rfl := (Prod.mk.inj hread).2
    refine ⟨_, (o, w), _, _, hblock, ?_, hrows, hcols, rfl, rfl, fun _ => rfl⟩
    rw [shapeGiver, hroot]
    rfl

section Column

/-- The first entry of `x` and three times the second one. -/
def weighing : ExpressionComponent Float where
  inputs := [("x", .vector [1.0, 2.0])]
  outputs := [("y", .scalar 7.0,
    [.binary .add (.input "x" 0) (.binaryReal .mul (.input "x" 1) 3.0)])]
  partials := [(.names ["y"], .names ["x"], .ok (.approximated .finiteDifference))]
  checkSettings := none
  complexSafe := true
  analytic := []
  failures := []

/-- A column of two numbers, and their weighted sum, in a root that approximates by steps of a
half. -/
def column : Group Float Unit where
  settings := { GroupSettings.plain with
    connections := [("p.x", "c.x")]
    approximation := some { Settings.finiteDifference with step := some 0.5 } }
  members := .component "p" (.independent () [("x", .vector [1.0, 2.0])]) <|
    .component "c" weighing.toComponent .empty

theorem isSome_column : (ofGroup column .standard).toOption.isSome = true := by decide +kernel

/-- The model of the column. -/
def columnModel : Model Float Unit := (ofGroup column .standard).toOption.get isSome_column

theorem ofGroup_column : ofGroup column .standard = .ok columnModel :=
  Except.eq_ok_of_toOption (Option.some_get isSome_column).symm

theorem isSome_columnStart : columnModel.start.toOption.isSome = true := by decide +kernel

/-- The column at the start. -/
def columnStart : ModelState Float Unit := columnModel.start.toOption.get isSome_columnStart

theorem start_column : columnModel.start = .ok columnStart :=
  Except.eq_ok_of_toOption (Option.some_get isSome_columnStart).symm

/-- The column after a run. -/
def columnRun : ModelState Float Unit := ((Operation.run.work columnModel).perform columnStart).2

theorem reaches_columnRun : columnModel.Reaches columnStart [.run] columnRun :=
  .cons _ (by decide +kernel) (.nil _)

/-- The weighted sum. -/
def sumResponse : DriverVariable Float := .whole "c.y"

/-- The first entry of the column. -/
def firstEntry : DriverVariable Float := ⟨"p.x", some [0], none⟩

/-- The input that reads the whole column. -/
def wholeInput : DriverVariable Float := .whole "c.x"

/-- The derivatives of the sum by the first entry of the column, and by the input that reads it. -/
def columnTotals : Outcome (ModelError Float) (Totals Float) :=
  ((columnModel.computeTotals [sumResponse] [firstEntry, wholeInput]).perform columnRun).1

theorem isSome_columnTotals : columnTotals.toOption.isSome = true := by decide +kernel

theorem exists_computeTotals_column : ∃ t,
    (columnModel.computeTotals [sumResponse] [firstEntry, wholeInput]).perform columnRun =
      (.ok (columnTotals.toOption.get isSome_columnTotals), t) := by
  have h := Except.eq_ok_of_toOption (Option.some_get isSome_columnTotals).symm
  unfold columnTotals at h
  exact ⟨_, Action.perform_eq_ok h⟩

/-- Each of the two requested blocks is there. -/
theorem blocks_column : ∃ s t totals, columnModel.Reaches columnStart [.run] s ∧
    (columnModel.computeTotals [sumResponse] [firstEntry, wholeInput]).perform s =
      (.ok totals, t) ∧ ∀ w ∈ [firstEntry, wholeInput], ∃ block p rows cols,
        totals.get? (sumResponse.name, w.name) = some block ∧
        columnModel.shapeGiver [sumResponse] [firstEntry, wholeInput] sumResponse w = some p ∧
        columnModel.selection p.1 = .ok rows ∧ columnModel.selection p.2 = .ok cols ∧
        block.rows = rows.length ∧ block.cols = cols.length := by
  obtain ⟨t, htotals⟩ := exists_computeTotals_column
  refine ⟨_, t, _, reaches_columnRun, htotals, fun w hw => ?_⟩
  obtain ⟨block, p, rows, cols, hblock, hp, hrows, hcols, hshape⟩ :=
    blocks_of_computeTotals ofGroup_column start_column reaches_columnRun (by decide) (by decide)
      htotals (List.mem_singleton_self _) hw
  exact ⟨block, p, rows, cols, hblock, hp, hrows, hcols, hshape.1, hshape.2.1⟩

/-- **The shape of a requested block may be that of another pair**: the derivative by the first entry
of the column has two columns. -/
theorem exists_misshapen_block : ∃ (g : Group Float Unit) (settings : SetupSettings)
    (m : Model Float Unit) (first s t : ModelState Float Unit) (ops : List (Operation Float))
    (of wrt : List (DriverVariable Float)) (totals : Totals Float), ofGroup g settings = .ok m ∧
      m.start = .ok first ∧ m.Reaches first ops s ∧ (of.map (·.name)).Nodup ∧
      (wrt.map (·.name)).Nodup ∧ (m.computeTotals of wrt).perform s = (.ok totals, t) ∧
      ∃ o ∈ of, ∃ w ∈ wrt, ∃ block entries, totals.get? (o.name, w.name) = some block ∧
        m.selection w = .ok entries ∧ block.cols ≠ entries.length := by
  obtain ⟨t, htotals⟩ := exists_computeTotals_column
  have hcols : ((columnTotals.toOption.get isSome_columnTotals).get? ("c.y", "p.x")).map
      DenseMatrix.cols = some 2 := by decide +kernel
  have hentries : (columnModel.selection firstEntry).toOption = some [0] := by decide +kernel
  obtain ⟨block, hblock, htwo⟩ := Option.map_eq_some_iff.1 hcols
  refine ⟨column, .standard, columnModel, columnStart, columnRun, t, [.run], [sumResponse],
    [firstEntry, wholeInput], _, ofGroup_column, start_column, reaches_columnRun, by decide,
    by decide, htotals, sumResponse, List.mem_singleton_self _, firstEntry,
    List.mem_cons_self, block, [0], hblock, Except.eq_ok_of_toOption hentries, ?_⟩
  rw [htwo]
  decide

end Column

end Model

end Sensitivity
