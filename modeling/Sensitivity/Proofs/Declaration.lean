import Mathlib.Data.List.Induction
import Sensitivity.Declaration
import Sensitivity.Proofs.Block
import Sensitivity.Proofs.Success
import Sensitivity.Proofs.Table

/-!
# What declarations resolve to

A partial declaration covers every pair of a selected output and a selected input
(`Declarations.covered`). It is faulty when it selects a name that does not exist on its side, or has
a pattern that does not fit the block of a pair that it covers (`Declarations.Faulty`).

One declaration, unless it is faulty, changes what was found so far at the pairs that it covers and
nowhere else (`Declarations.Extends`, `Declarations.of_coverAll`). So declarations resolve exactly
when none of them is faulty, also of those that later ones override, and then each covered pair is
listed once, in the order of first coverage, as the last declaration that covers it provides it
(`Declarations.resolved_of_declarations`).
-/

namespace Sensitivity

variable {R : Type}

section Repetitions

variable {α : Type} [BEq α] [LawfulBEq α] {x : α} {xs : List α}

/-- A list without repetitions stays as it is. -/
theorem eraseDups_of_nodup (h : xs.Nodup) : xs.eraseDups = xs := by
  induction xs with
  | nil => rfl
  | cons x rest ih =>
    obtain ⟨hnot, hrest⟩ := List.nodup_cons.1 h
    have hkept : rest.filter (fun y => !y == x) = rest :=
      List.filter_eq_self.2 fun y hy => by
        rw [Bool.not_eq_true', beq_eq_false_iff_ne]
        rintro rfl
        exact hnot hy
    rw [List.eraseDups_cons, hkept, ih hrest]

/-- A repetition behind a list is dropped. -/
theorem eraseDups_append_cons_of_mem (h : x ∈ xs) (rest : List α) :
    (xs ++ x :: rest).eraseDups = (xs ++ rest).eraseDups := by
  have hremoved : (x :: rest).removeAll xs = rest.removeAll xs := by
    rw [List.cons_removeAll, if_neg (by simpa using h)]
  rw [List.eraseDups_append, List.eraseDups_append, hremoved]

/-- Repetitions may be dropped in front first. -/
theorem eraseDups_append_eraseDups (xs ys : List α) :
    (xs.eraseDups ++ ys).eraseDups = (xs ++ ys).eraseDups := by
  have hremoved : ys.removeAll xs.eraseDups = ys.removeAll xs :=
    List.filter_congr fun y _ => by
      rw [Bool.not_inj_iff, Bool.eq_iff_iff, List.elem_iff, List.elem_iff, List.mem_eraseDups]
  rw [List.eraseDups_append, List.eraseDups_append, hremoved,
    eraseDups_of_nodup (nodup_eraseDups xs)]

end Repetitions

namespace Selection

/-- The names that a selection stands for, whether or not they are available. -/
def selected (available : List String) : Selection → List String
  | all => available
  | names ns => ns

/-- A selection resolves to its names when all of them are available. -/
theorem resolve_eq_ok {available names : List String} {s : Selection} :
    s.resolve available = (.ok names : Except (DeclarationError R) _) ↔
      s.selected available = names ∧ ∀ n ∈ names, n ∈ available := by
  cases s with
  | all =>
    rw [resolve, selected, Except.ok.injEq]
    constructor
    · rintro rfl
      exact ⟨rfl, fun n hn => hn⟩
    · exact And.left
  | names ns =>
    rw [resolve, selected]
    split
    · rename_i n hn
      have hnot : n ∉ available := by simpa using List.find?_some hn
      constructor
      · rintro ⟨⟩
      · rintro ⟨rfl, hall⟩
        exact absurd (hall n (List.mem_of_find?_eq_some hn)) hnot
    · rename_i hnone
      have hall : ∀ n ∈ ns, n ∈ available := by simpa using List.find?_eq_none.1 hnone
      rw [Except.ok.injEq]
      constructor
      · rintro rfl
        exact ⟨rfl, hall⟩
      · exact And.left

end Selection

/-- A pattern is accepted for a block that it fits. -/
theorem Pattern.validate_eq_ok {p : Pattern} {of wrt : String} {rows cols : Nat} :
    p.validate of wrt rows cols = (.ok () : Except (DeclarationError R) Unit) ↔
      p.fits rows cols = true := by
  rw [fits_iff, validate]
  split
  · rename_i hlengths
    constructor
    · rintro ⟨⟩
    · rintro ⟨hpaired, -⟩
      exact absurd hpaired hlengths
  · rename_i hlengths
    split
    · rename_i r hr
      have hlarge : rows ≤ r := by simpa using List.find?_some hr
      constructor
      · rintro ⟨⟩
      · rintro ⟨-, hrows, -⟩
        have := hrows r (List.mem_of_find?_eq_some hr)
        omega
    · rename_i c _ hc
      have hlarge : cols ≤ c := by simpa using List.find?_some hc
      constructor
      · rintro ⟨⟩
      · rintro ⟨-, -, hcols⟩
        have := hcols c (List.mem_of_find?_eq_some hc)
        omega
    · rename_i hrows hcols
      constructor
      · rintro -
        refine ⟨not_not.1 hlengths, fun r hr => ?_, fun c hc => ?_⟩
        · simpa using List.find?_eq_none.1 hrows r hr
        · simpa using List.find?_eq_none.1 hcols c hc
      · rintro -
        rfl

/-- A declaration that selects all variables on both sides. -/
def PartialDeclaration.SelectsAll (p : PartialDeclaration R) : Prop := p.of = .all ∧ p.wrt = .all

instance (p : PartialDeclaration R) : Decidable p.SelectsAll :=
  inferInstanceAs (Decidable (p.of = .all ∧ p.wrt = .all))

namespace Declarations

/-- The pairs that a declaration covers, in the order in which it covers them. -/
def covered (d : Declarations R) (p : PartialDeclaration R) : List (String × String) :=
  (p.of.selected d.outputs.keys).flatMap fun of =>
    (p.wrt.selected d.inputs.keys).map fun wrt => (of, wrt)

/-- A declaration without a pattern, or with one that fits the block of a pair. -/
def Suits (d : Declarations R) (p : PartialDeclaration R) (pair : String × String) : Prop :=
  ∀ pattern, p.provision.pattern = some pattern →
    pattern.fits (sizeIn d.outputs pair.1) (sizeIn d.inputs pair.2) = true

/-- A declaration that names a variable which does not exist on its side, or that has a pattern which
does not fit a pair it covers. -/
def Faulty (d : Declarations R) (p : PartialDeclaration R) : Prop :=
  (∃ of ∈ p.of.selected d.outputs.keys, of ∉ d.outputs.keys) ∨
    (∃ wrt ∈ p.wrt.selected d.inputs.keys, wrt ∉ d.inputs.keys) ∨
    ∃ pair ∈ d.covered p, ¬ d.Suits p pair

/-- Whether a pair counts as declared for everything so far. -/
def flagged (found : Resolution R) (pair : String × String) : Bool :=
  ((found.get? pair).map DeclaredPartial.everything).getD false

/-- What a declaration makes of what was found before: new pairs go behind the old ones, covered pairs
are provided anew, and stay declared for everything if they were. -/
structure Extends (p : PartialDeclaration R) (pairs : List (String × String))
    (found found' : Resolution R) : Prop where
  keys : found'.keys = (found.keys ++ pairs).eraseDups
  get? : ∀ pair, found'.get? pair =
    if pair ∈ pairs then
      some ⟨pair.1, pair.2, p.provision, decide p.SelectsAll || flagged found pair⟩
    else found.get? pair

section Covering

variable {d : Declarations R} {p : PartialDeclaration R} {found found' : Resolution R}

/-- A pair that a declaration suits is provided anew. -/
theorem cover_eq_ok {pair : String × String} :
    d.cover p found pair = .ok found' ↔ d.Suits p pair ∧ found' =
      found.insert pair ⟨pair.1, pair.2, p.provision, decide p.SelectsAll || flagged found pair⟩ := by
  have hall : (p.of == .all && p.wrt == .all) = decide p.SelectsAll := by
    rw [Bool.eq_iff_iff, decide_eq_true_iff]
    simp [PartialDeclaration.SelectsAll]
  unfold cover
  simp only [hall]
  cases hpattern : p.provision.pattern with
  | none =>
    have hsuits : d.Suits p pair := fun pattern h => by rw [hpattern] at h; cases h
    constructor
    · rintro ⟨⟩
      exact ⟨hsuits, rfl⟩
    · rintro ⟨-, rfl⟩
      rfl
  | some pattern =>
    have hsuits : d.Suits p pair ↔
        pattern.validate pair.1 pair.2 (sizeIn d.outputs pair.1) (sizeIn d.inputs pair.2) =
          (.ok () : Except (DeclarationError R) Unit) := by
      rw [Pattern.validate_eq_ok]
      simp [Suits, hpattern]
    rw [hsuits, Except.bind_eq_ok]
    constructor
    · rintro ⟨⟨⟩, hvalid, ⟨⟩⟩
      exact ⟨hvalid, rfl⟩
    · rintro ⟨hvalid, rfl⟩
      exact ⟨(), hvalid, rfl⟩

/-- A new pair goes behind all others. -/
theorem eraseDups_keys_insert (t : Resolution R) (pair : String × String) (v : DeclaredPartial R)
    (rest : List (String × String)) :
    ((t.insert pair v).keys ++ rest).eraseDups = (t.keys ++ pair :: rest).eraseDups := by
  rw [Table.keys_insert]
  split
  · rename_i hmem
    rw [eraseDups_append_cons_of_mem hmem]
  · rw [List.append_assoc, List.singleton_append]

/-- **Pairs covered one after another** extend what was found. -/
theorem extends_of_foldlM {pairs : List (String × String)}
    (h : pairs.foldlM (d.cover p) found = .ok found') : Extends p pairs found found' := by
  induction pairs generalizing found with
  | nil =>
    cases h
    refine ⟨?_, fun pair => by rw [if_neg List.not_mem_nil]⟩
    rw [List.append_nil]
    exact (eraseDups_of_nodup found'.nodup).symm
  | cons pair rest ih =>
    rw [List.foldlM_cons] at h
    obtain ⟨next, hnext, hrest⟩ := Except.bind_eq_ok.1 h
    obtain ⟨-, rfl⟩ := cover_eq_ok.1 hnext
    obtain ⟨hkeys, hget⟩ := ih hrest
    refine ⟨hkeys.trans (eraseDups_keys_insert found pair _ rest), fun pair' => ?_⟩
    rw [hget, Table.get?_insert]
    by_cases hsame : pair' = pair
    · subst hsame
      rw [if_pos rfl, if_pos List.mem_cons_self]
      split
      · -- the pair is covered again, and keeps the flag that it has now
        have hflag : flagged (found.insert pair' ⟨pair'.1, pair'.2, p.provision,
            decide p.SelectsAll || flagged found pair'⟩) pair' =
              (decide p.SelectsAll || flagged found pair') := by
          rw [flagged, Table.get?_insert, if_pos rfl]
          rfl
        rw [hflag, ← Bool.or_assoc, Bool.or_self]
      · rfl
    · have hflag : flagged (found.insert pair ⟨pair.1, pair.2, p.provision,
          decide p.SelectsAll || flagged found pair⟩) pair' = flagged found pair' := by
        simp only [flagged, Table.get?_insert, if_neg hsame]
      rw [if_neg hsame, hflag]
      simp only [List.mem_cons, hsame, false_or]

/-- Pairs that a declaration suits can be covered. -/
theorem exists_foldlM_cover {pairs : List (String × String)} (h : ∀ pair ∈ pairs, d.Suits p pair)
    (found : Resolution R) : ∃ found', pairs.foldlM (d.cover p) found = .ok found' := by
  induction pairs generalizing found with
  | nil => exact ⟨found, rfl⟩
  | cons pair rest ih =>
    rw [List.foldlM_cons, cover_eq_ok.2 ⟨h pair List.mem_cons_self, rfl⟩]
    exact ih (fun pair' hpair' => h pair' (List.mem_cons_of_mem pair hpair')) _

/-- Only pairs that a declaration suits are covered. -/
theorem suits_of_foldlM {pairs : List (String × String)}
    (h : pairs.foldlM (d.cover p) found = .ok found') : ∀ pair ∈ pairs, d.Suits p pair := by
  induction pairs generalizing found with
  | nil => exact fun pair hpair => absurd hpair List.not_mem_nil
  | cons pair rest ih =>
    rw [List.foldlM_cons] at h
    obtain ⟨next, hnext, hrest⟩ := Except.bind_eq_ok.1 h
    rintro pair' hpair'
    rcases List.mem_cons.1 hpair' with rfl | hpair'
    · exact (cover_eq_ok.1 hnext).1
    · exact ih hrest pair' hpair'

/-- **What one declaration does**: it extends what was found, and it is not faulty. -/
theorem of_coverAll (h : d.coverAll found p = .ok found') :
    ¬ d.Faulty p ∧ Extends p (d.covered p) found found' := by
  obtain ⟨ofs, hofs, h⟩ := Except.bind_eq_ok.1 h
  obtain ⟨wrts, hwrts, h⟩ := Except.bind_eq_ok.1 h
  obtain ⟨rfl, hof⟩ := Selection.resolve_eq_ok.1 hofs
  obtain ⟨rfl, hwrt⟩ := Selection.resolve_eq_ok.1 hwrts
  refine ⟨?_, extends_of_foldlM h⟩
  rintro (⟨of, hsel, hnot⟩ | ⟨wrt, hsel, hnot⟩ | ⟨pair, hpair, hnot⟩)
  · exact hnot (hof of hsel)
  · exact hnot (hwrt wrt hsel)
  · exact hnot (suits_of_foldlM h pair hpair)

/-- A declaration that is not faulty is taken. -/
theorem exists_coverAll (h : ¬ d.Faulty p) (found : Resolution R) :
    ∃ found', d.coverAll found p = .ok found' := by
  simp only [Faulty, not_or, not_exists, not_and, not_not] at h
  obtain ⟨hof, hwrt, hsuits⟩ := h
  obtain ⟨found', hfound⟩ := exists_foldlM_cover hsuits found
  exact ⟨found', Except.bind_eq_ok.2 ⟨_, Selection.resolve_eq_ok.2 ⟨rfl, hof⟩,
    Except.bind_eq_ok.2 ⟨_, Selection.resolve_eq_ok.2 ⟨rfl, hwrt⟩, hfound⟩⟩⟩

end Covering

section Resolving

variable {d : Declarations R}

/-- A partial that is provided as by the last declaration that covers its pair, and declared for
everything when one of those that cover it selects all variables on both sides. -/
structure Stands (d : Declarations R) (ps : List (PartialDeclaration R)) (x : DeclaredPartial R) :
    Prop where
  last : ∃ before p after, ps = before ++ p :: after ∧ (x.of, x.wrt) ∈ d.covered p ∧
    (∀ later ∈ after, (x.of, x.wrt) ∉ d.covered later) ∧ x.provision = p.provision
  everything : x.everything = true ↔ ∃ p ∈ ps, (x.of, x.wrt) ∈ d.covered p ∧ p.SelectsAll

/-- A list of partials that has each covered pair once, in the order of first coverage. -/
structure Lists (d : Declarations R) (xs : List (DeclaredPartial R)) : Prop where
  pairs : xs.map (fun x => (x.of, x.wrt)) = (d.partials.flatMap d.covered).eraseDups
  stands : ∀ x ∈ xs, d.Stands d.partials x

/-- What was found in some declarations. -/
structure Found (d : Declarations R) (ps : List (PartialDeclaration R)) (found : Resolution R) :
    Prop where
  keys : found.keys = (ps.flatMap d.covered).eraseDups
  stands : ∀ pair x, found.get? pair = some x → pair = (x.of, x.wrt) ∧ d.Stands ps x

/-- A pair counts as declared for everything when a declaration says so. -/
theorem Found.flagged_iff {ps : List (PartialDeclaration R)} {found : Resolution R}
    (h : d.Found ps found) (pair : String × String) :
    flagged found pair = true ↔ ∃ p ∈ ps, pair ∈ d.covered p ∧ p.SelectsAll := by
  cases hget : found.get? pair with
  | none =>
    have hnot : pair ∉ found.keys := (Table.get?_eq_none_iff _ _).1 hget
    rw [h.keys, List.mem_eraseDups] at hnot
    constructor
    · simp [flagged, hget]
    · rintro ⟨p, hp, hpair, -⟩
      exact absurd (List.mem_flatMap.2 ⟨p, hp, hpair⟩) hnot
  | some x =>
    obtain ⟨rfl, hx⟩ := h.stands pair x hget
    rw [← hx.everything]
    simp [flagged, hget]

/-- **One more declaration** leaves what is found in all of them. -/
theorem Found.extend {ps : List (PartialDeclaration R)} {p : PartialDeclaration R}
    {found found' : Resolution R} (h : d.Found ps found)
    (hextends : Extends p (d.covered p) found found') : d.Found (ps ++ [p]) found' := by
  constructor
  · rw [hextends.keys, h.keys, eraseDups_append_eraseDups, List.flatMap_append,
      List.flatMap_singleton]
  · intro pair x hx
    rw [hextends.get?] at hx
    split at hx
    · rename_i hpair
      cases hx
      refine ⟨rfl, ⟨ps, p, [], rfl, hpair, fun _ h => absurd h List.not_mem_nil, rfl⟩, ?_⟩
      simp only [Bool.or_eq_true, decide_eq_true_eq, h.flagged_iff, List.mem_append,
        List.mem_singleton]
      constructor
      · rintro (hall | ⟨p', hp', hcovered, hall⟩)
        · exact ⟨p, .inr rfl, hpair, hall⟩
        · exact ⟨p', .inl hp', hcovered, hall⟩
      · rintro ⟨p', hp' | rfl, hcovered, hall⟩
        · exact .inr ⟨p', hp', hcovered, hall⟩
        · exact .inl hall
    · rename_i hpair
      obtain ⟨rfl, ⟨before, q, after, rfl, hq, hafter, hprovision⟩, heverything⟩ := h.stands pair x hx
      refine ⟨rfl, ⟨before, q, after ++ [p], by simp, hq, fun later hlater => ?_, hprovision⟩, ?_⟩
      · rcases List.mem_append.1 hlater with hlater | hlater
        · exact hafter later hlater
        · rwa [List.mem_singleton.1 hlater]
      · rw [heverything]
        constructor
        · rintro ⟨p', hp', hcovered, hall⟩
          exact ⟨p', List.mem_append_left _ hp', hcovered, hall⟩
        · rintro ⟨p', hp', hcovered, hall⟩
          rcases List.mem_append.1 hp' with hp' | hp'
          · exact ⟨p', hp', hcovered, hall⟩
          · rw [List.mem_singleton.1 hp'] at hcovered
            exact absurd hcovered hpair

/-- What all declarations were taken to. -/
theorem found_of_foldlM {ps : List (PartialDeclaration R)} {found : Resolution R}
    (h : ps.foldlM d.coverAll ∅ = .ok found) : d.Found ps found ∧ ∀ p ∈ ps, ¬ d.Faulty p := by
  induction ps using List.reverseRecOn generalizing found with
  | nil =>
    cases h
    refine ⟨⟨rfl, fun pair x hx => by cases hx⟩, fun p hp => absurd hp List.not_mem_nil⟩
  | append_singleton ps p ih =>
    rw [List.foldlM_append] at h
    obtain ⟨before, hbefore, h⟩ := Except.bind_eq_ok.1 h
    obtain ⟨after, hafter, h⟩ := Except.bind_eq_ok.1 h
    cases h
    obtain ⟨hfound, hnone⟩ := ih hbefore
    obtain ⟨hsound, hextends⟩ := of_coverAll hafter
    refine ⟨hfound.extend hextends, fun p' hp' => ?_⟩
    rcases List.mem_append.1 hp' with hp' | hp'
    · exact hnone p' hp'
    · rwa [List.mem_singleton.1 hp']

/-- **Declarations resolve by the last one that covers a pair**, and to an error exactly when one of
them is faulty. -/
theorem resolved_of_declarations (d : Declarations R) :
    (∀ xs, d.resolve = .ok xs → d.Lists xs) ∧
      ((∃ e, d.resolve = .error e) ↔ ∃ p ∈ d.partials, d.Faulty p) := by
  have hresolve (xs : List (DeclaredPartial R)) (h : d.resolve = .ok xs) :
      d.Lists xs ∧ ∀ p ∈ d.partials, ¬ d.Faulty p := by
    obtain ⟨found, hfound, hxs⟩ := Except.bind_eq_ok.1 h
    cases hxs
    obtain ⟨⟨hkeys, hstands⟩, hnone⟩ := found_of_foldlM hfound
    have hentry (e) (he : e ∈ found.entries) : e.1 = (e.2.of, e.2.wrt) ∧ d.Stands d.partials e.2 :=
      hstands e.1 e.2 ((Table.get?_eq_some_iff _ _ _).2 he)
    refine ⟨⟨?_, fun x hx => ?_⟩, hnone⟩
    · rw [← hkeys, Table.values, Table.keys, List.map_map]
      exact List.map_congr_left fun e he => (hentry e he).1.symm
    · obtain ⟨e, he, rfl⟩ := List.mem_map.1 hx
      exact (hentry e he).2
  refine ⟨fun xs h => (hresolve xs h).1, ?_⟩
  constructor
  · rintro ⟨e, he⟩
    by_contra hnone
    push Not at hnone
    obtain ⟨found, hfound, -⟩ := Except.exists_foldlM (P := fun _ => True) (f := d.coverAll)
      (fun p hp found _ => by
        obtain ⟨found', hfound'⟩ := exists_coverAll (hnone p hp) found
        exact ⟨found', hfound', trivial⟩) (trivial : True) (b := ∅)
    have hok : d.resolve = .ok found.values := Except.bind_eq_ok.2 ⟨found, hfound, rfl⟩
    rw [hok] at he
    cases he
  · rintro ⟨p, hp, hfaulty⟩
    cases h : d.resolve with
    | error e => exact ⟨e, rfl⟩
    | ok xs => exact absurd hfaulty ((hresolve xs h).2 p hp)

/-- The output `f` by the inputs `x` and `y`, declared by these partials. -/
def plane (partials : List (PartialDeclaration Nat)) : Declarations Nat where
  inputs := .ofList [("x", ⟨[2], [0, 0], 1⟩), ("y", ⟨[1], [0], 1⟩)]
  outputs := .ofList [("f", ⟨[2], [0, 0], 1⟩)]
  partials := partials
  checkSettings := none

/-- The partials of `f` by `x`, named twice, with a pattern. -/
def masked (pattern : Pattern) : PartialDeclaration Nat :=
  ⟨.names ["f"], .names ["x", "x"], none, some pattern⟩

/-- The pair that is declared again keeps its place and its flag, and has the pattern. A row too
large for it is refused although all of `f` is declared again behind it. -/
theorem resolved_plane :
    (plane [⟨.all, .all, .analytic⟩, masked ⟨[0, 1], [0, 1]⟩]).Lists
        [⟨"f", "x", ⟨none, some ⟨[0, 1], [0, 1]⟩⟩, true⟩, ⟨"f", "y", .analytic, true⟩] ∧
      ∃ e, (plane [masked ⟨[2], [0]⟩, ⟨.all, .all, .analytic⟩]).resolve = .error e := by
  constructor
  · exact (resolved_of_declarations _).1 _ rfl
  · refine (resolved_of_declarations _).2.2 ⟨masked ⟨[2], [0]⟩, List.mem_cons_self, ?_⟩
    refine .inr (.inr ⟨("f", "x"), List.mem_cons_self, fun h => ?_⟩)
    exact absurd (h ⟨[2], [0]⟩ rfl) (by decide)

end Resolving

end Declarations

end Sensitivity
