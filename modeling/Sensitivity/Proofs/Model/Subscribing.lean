import Sensitivity.Proofs.Model.Influence
import Sensitivity.Proofs.Model.Upkeep

/-!
# The schemes of inner groups

A group inside a model that approximates its derivatives asks for a block of each of its outputs by
each of its external inputs (`Model.Laid.mem_groupPairs`), in its own settings. Its scheme has these requests from the start on
(`Model.subscribed_start`) and keeps them through all operations (`Model.stocked_lasting`), in contrast
to that of the root, which is given the requests of every computation.
-/

namespace Sensitivity

variable {R M : Type}

theorem joinPath_ne_empty (path : String) {name : String} (hname : name ≠ "") :
    joinPath path name ≠ "" := by
  unfold joinPath
  split
  · exact hname
  · exact fun h => hname (String.append_eq_empty_iff.1 h).2

/-- What is added under a name that was checked has a path. -/
theorem Flattening.ne_empty_of_checkName {path : String} {seen : List String} {name : String}
    (h : (checkName path seen name : Outcome (ModelError R) Unit) = .ok ()) : name ≠ "" := by
  rintro rfl
  cases h

/-- All groups inside a model have paths. -/
theorem Flattening.path_ne_empty {path : String} {seen : List String} {members : Members R M}
    {f f' : Flattening R M} {schedule : Schedule R}
    (h : addMembers path seen members f = .ok (schedule, f')) :
    ∀ x ∈ schedule.groups, x.1.path ≠ "" := by
  induction members generalizing path seen f f' schedule with
  | empty =>
    cases h
    exact fun _ hx => nomatch hx
  | component name component rest ih =>
    obtain ⟨_, -, h⟩ := Except.bind_eq_ok.1 h
    obtain ⟨f₁, -, h⟩ := Except.bind_eq_ok.1 h
    obtain ⟨⟨schedule', f₂⟩, hrest, h⟩ := Except.bind_eq_ok.1 h
    cases h
    have hgroups := ih hrest
    exact hgroups
  | group name settings members rest ihmembers ihrest =>
    obtain ⟨_, hname, h⟩ := Except.bind_eq_ok.1 h
    obtain ⟨⟨body, f₁⟩, hbody, h⟩ := Except.bind_eq_ok.1 h
    obtain ⟨⟨schedule', f₂⟩, hrest, h⟩ := Except.bind_eq_ok.1 h
    cases h
    refine List.forall_mem_cons.2 ⟨joinPath_ne_empty _ (ne_empty_of_checkName hname), ?_⟩
    exact List.forall_mem_append.2 ⟨ihmembers hbody, ihrest hrest⟩

namespace Model

section Pairs

variable {m : Model R M} {g : Group R M} {x : ModelGroup R} {id p : Nat} {u v : ModelVariable R}
  {kind : VariableKind}

/-- The variables of a kind of the components in a group. -/
def memberIds (m : Model R M) (x : ModelGroup R) (kind : VariableKind) : List Nat :=
  x.members.flatMap fun c => (m.components[c]?.map (Flattening.idsOf · kind)).getD []

theorem Laid.mem_memberIds (hm : m.Laid) : id ∈ m.memberIds x kind ↔
    ∃ v, m.variableAt? id = some v ∧ v.kind = kind ∧ x.components.contains v.owner = true := by
  have hmember (k : Nat) : k ∈ x.members ↔ x.components.contains k = true := by
    rw [ModelGroup.members, Span.positions, List.mem_range'_1, Span.contains_iff]
    rfl
  rw [memberIds, List.mem_flatMap]
  constructor
  · rintro ⟨k, hk, hid⟩
    cases hc : m.components[k]? with
    | none =>
      rw [hc] at hid
      cases hid
    | some c =>
      rw [hc, Option.map_some, Option.getD_some] at hid
      obtain ⟨j, hj⟩ := List.mem_iff_getElem?.1 hid
      obtain ⟨v, -, hv, hkind, howner, -⟩ := hm.exists_place hc hj
      exact ⟨v, hv, hkind, howner ▸ (hmember k).1 hk⟩
  · rintro ⟨v, hv, rfl, howner⟩
    obtain ⟨c, hc, hid⟩ := hm.owned id v hv
    exact ⟨v.owner, (hmember _).2 howner, by rw [hc]; exact hid⟩

theorem Consistent.nodup_memberIds (hm : m.Consistent g) (kind : VariableKind)
    (hinside : x.components.stop ≤ m.components.length) : (m.memberIds x kind).Nodup := by
  have hall : (m.components.flatMap (Flattening.idsOf · kind)).Nodup := by
    refine List.Nodup.sublist (List.Sublist.flatMap_right (g := fun c => c.inputIds ++ c.outputIds) _
      fun c _ => ?_) (hm.numbered ▸ List.nodup_range)
    cases kind
    · exact List.sublist_append_left _ _
    · exact List.sublist_append_right _ _
  rw [memberIds, ModelGroup.members, flatMap_positions _ _ _ _ hinside]
  exact hall.sublist (List.Sublist.flatMap ((List.take_sublist _ _).trans (List.drop_sublist _ _)) _)

/-- A variable is found under its name. -/
theorem Consistent.indexOf?_name (hm : m.Consistent g) (hv : m.variableAt? id = some v) :
    m.variableTable.indexOf? v.name = some id := by
  obtain ⟨e, he, rfl⟩ : ∃ e, m.variableTable.entries[id]? = some e ∧ e.2 = v := by
    simpa [variableAt?, Table.values] using hv
  exact Table.indexOf?_eq_some_iff.2 ⟨e.2, he.trans (by rw [← hm.named e (List.mem_of_getElem? he)])⟩

theorem Consistent.nodup_namesOf (hm : m.Consistent g) {ids : List Nat} (h : ids.Nodup) :
    (m.namesOf ids).Nodup := by
  refine List.Nodup.filterMap (fun i j name hi hj => ?_) h
  obtain ⟨v, hv, rfl⟩ := Option.map_eq_some_iff.1 hi
  obtain ⟨w, hw, hname⟩ := Option.map_eq_some_iff.1 hj
  have hindex := hm.indexOf?_name hw
  rw [hname, hm.indexOf?_name hv] at hindex
  exact Option.some.inj hindex

/-- Whether an input of a group reads nothing inside the group. -/
def external (m : Model R M) (scope : Span) (id : Nat) : Bool :=
  match (m.source? id).bind m.variableAt? with
  | some source => !scope.contains source.owner
  | none => true

/-- The entries of an external input read nothing in scope. -/
theorem Laid.external_eq (hm : m.Laid) (hu : m.variableAt? id = some u) (hkind : u.kind = .input)
    (hp : u.span.contains p = true) (scope : Span) :
    m.external scope id = ((m.wire p).filter (m.inScope scope)).isNone := by
  unfold external
  cases hsource : m.source? id with
  | none =>
    rw [hm.wire_of_none hu hkind hp hsource]
    rfl
  | some source =>
    obtain ⟨v, -, hv, -⟩ := hm.matching _ _ hsource
    obtain ⟨hwire, hvkind, hq⟩ := hm.wire_of_source hu hp hsource hv
    have howner := hm.ownerOf?_eq hv hq
    rw [hvkind] at howner
    rw [hwire, Option.bind_some, hv, Option.filter_some, inScope, howner, Option.any_some]
    cases h : scope.contains v.owner <;> simp [h]

/-- **A group asks for the blocks of its outputs by its external inputs.** -/
theorem Laid.mem_groupPairs (hm : m.Laid) {pair : String × String} : pair ∈ m.groupPairs x ↔
    ∃ of wrt v u, m.variableAt? of = some v ∧ v.kind = .output ∧
      x.components.contains v.owner = true ∧ m.variableAt? wrt = some u ∧ u.kind = .input ∧
      x.components.contains u.owner = true ∧ m.external x.components wrt = true ∧
        pair = (v.name, u.name) := by
  have hnames {ids : List Nat} {name : String} : name ∈ m.namesOf ids ↔
      ∃ id ∈ ids, ∃ v, m.variableAt? id = some v ∧ v.name = name := by
    simp only [namesOf, List.mem_filterMap, Option.map_eq_some_iff]
  have hinputs {id : Nat} : id ∈ m.externalInputs x ↔
      id ∈ m.memberIds x .input ∧ m.external x.components id = true := List.mem_filter
  have houtputs {id : Nat} : id ∈ m.groupOutputs x ↔ id ∈ m.memberIds x .output := Iff.rfl
  simp only [groupPairs, List.mem_flatMap, List.mem_map, hnames, hinputs, houtputs, hm.mem_memberIds]
  constructor
  · rintro ⟨_, ⟨of, ⟨v, hv, hkind, howner⟩, v', hv', rfl⟩, _, ⟨wrt, ⟨⟨u, hu, hukind, huowner⟩, hext⟩,
      u', hu', rfl⟩, rfl⟩
    obtain rfl := Option.some.inj (hv.symm.trans hv')
    obtain rfl := Option.some.inj (hu.symm.trans hu')
    exact ⟨of, wrt, v, u, hv, hkind, howner, hu, hukind, huowner, hext, rfl⟩
  · rintro ⟨of, wrt, v, u, hv, hkind, howner, hu, hukind, huowner, hext, rfl⟩
    exact ⟨_, ⟨of, ⟨v, hv, hkind, howner⟩, v, hv, rfl⟩, _, ⟨wrt, ⟨⟨u, hu, hukind, huowner⟩, hext⟩, u,
      hu, rfl⟩, rfl⟩

theorem Consistent.nodup_groupPairs (hm : m.Consistent g)
    (hinside : x.components.stop ≤ m.components.length) : (m.groupPairs x).Nodup := by
  have hof := hm.nodup_namesOf (hm.nodup_memberIds .output hinside)
  have hwrt := hm.nodup_namesOf
    ((hm.nodup_memberIds .input hinside).filter (m.external x.components))
  exact hof.product hwrt

end Pairs

end Model

variable [Scalar R] [DirectSolver R]

namespace Model

variable {m : Model R M} {g : Group R M} {settings : SetupSettings} {first s : ModelState R M}

variable (m) in
/-- What the scheme of a group inside a model asks for. -/
structure Subscribes (x : ModelGroup R × Schedule R) (own : Settings R) (a : Scheme R) : Prop where
  requests : a.requests = (m.groupPairs x.1).map fun p => .whole p.1 p.2 own
  valid : ∀ q ∈ a.requests, q.settings.validate = .ok ()
  current : a.Current (m.groupTarget m.root m.schedule)

variable (m) in
/-- Each group inside a model that approximates its derivatives keeps a scheme for them. -/
def Subscribed (s : ModelState R M) : Prop :=
  ∀ x ∈ m.schedule.groups, ∀ own, x.1.approximation = some own →
    ∃ a, s.schemes[x.1.number]?.join = some a ∧ m.Subscribes x own a

omit [DirectSolver R] in
theorem path_ne_of_ofGroup (h : ofGroup g settings = .ok m) :
    ∀ x ∈ m.schedule.groups, x.1.path ≠ "" := by
  simp only [ofGroup, Except.bind_eq_ok] at h
  obtain ⟨⟨schedule, f⟩, hmembers, ⟨sources, graph⟩, -, graph', -, _, -, hm⟩ := h
  cases hm
  exact Flattening.path_ne_empty hmembers

omit [Scalar R] [DirectSolver R] in
/-- The groups of a model have the numbers of their places, so those inside it have other numbers than
the root. -/
theorem Consistent.number_pos (hm : m.Consistent g) {x : ModelGroup R × Schedule R}
    (hx : x ∈ m.schedule.groups) : 0 < x.1.number ∧ m.groups[x.1.number]? = some x := by
  obtain ⟨k, hk⟩ := List.mem_iff_getElem?.1 hx
  have hplace : m.groups[k + 1]? = some x := hk
  have hnumber := congrArg (·[k + 1]?) hm.groupNumbers
  simp only [List.getElem?_map, hplace, Option.map_some] at hnumber
  obtain ⟨hlt, hnumber⟩ := List.getElem?_eq_some_iff.1 hnumber.symm
  rw [List.getElem_range] at hnumber
  rw [← hnumber]
  exact ⟨Nat.succ_pos k, hplace⟩

/-- **Groups inside a model start with the schemes** for their blocks. -/
theorem subscribed_start (h : ofGroup g settings = .ok m) (hstart : m.start = .ok first) :
    m.Subscribed first := by
  obtain ⟨schemes, hschemes, hfirst⟩ := Except.bind_eq_ok.1 hstart
  rw [Outcome.mapError_eq_ok, Outcome.ofExcept_eq_ok, Except.mapM_eq_ok] at hschemes
  cases hfirst
  intro x hx own hown
  obtain ⟨-, hplace⟩ := (consistent_of_ofGroup h).number_pos hx
  obtain ⟨hlt, hget⟩ := List.getElem?_eq_some_iff.1 hplace
  have hlt' : x.1.number < schemes.length := hschemes.length_eq ▸ hlt
  have hscheme := hschemes.get hlt hlt'
  rw [List.get_eq_getElem, List.get_eq_getElem, hget, startScheme] at hscheme
  have hpath : x.1.path.isEmpty = false := by
    simpa using path_ne_of_ofGroup h x hx
  simp only [hown, hpath, Bool.false_eq_true, if_false] at hscheme
  obtain ⟨a, hadded, ha⟩ := Except.bind_eq_ok.1 hscheme
  have hrequests : a.requests = (m.groupPairs x.1).map fun p => .whole p.1 p.2 own :=
    congrArg Scheme.Role.requests (Scheme.role_of_addRequests hadded)
  refine ⟨a, congrArg Option.join ((List.getElem?_eq_getElem hlt').trans
    (congrArg some (Except.ok.inj ha).symm)), hrequests, ?_,
    (Scheme.current_empty _ _ _).addRequests hadded⟩
  rcases Scheme.addRequests_cases ((m.groupPairs x.1).map fun p => .whole p.1 p.2 own) with
    ⟨-, e, he⟩ | ⟨hvalid, -⟩
  · rw [he] at hadded
    cases hadded
  · exact hrequests ▸ hvalid

/-- A scheme in the role of one that has the requests of a group has them as well. -/
theorem Subscribes.of_role {x : ModelGroup R × Schedule R} {own : Settings R} {a b : Scheme R}
    (h : m.Subscribes x own a) (hrole : b.role = a.role)
    (hcurrent : a.Current (m.groupTarget m.root m.schedule) →
      b.Current (m.groupTarget m.root m.schedule)) : m.Subscribes x own b := by
  have hrequests : b.requests = a.requests := congrArg Scheme.Role.requests hrole
  exact ⟨hrequests.trans h.requests, hrequests ▸ h.valid, hcurrent h.current⟩

/-- What is kept about a model is up to date: what its components keep, and the schemes of its
groups. -/
structure Stocked (m : Model R M) (s : ModelState R M) : Prop where
  upkept : m.Upkept s
  rooted : m.root.approximation.isSome → ∃ a, m.Rooted s a
  subscribed : m.Subscribed s

/-- **What is kept about a model stays up to date** through all operations. -/
theorem stocked_lasting (horderly : m.Orderly) (hm : m.Consistent g) (hroot : m.root.number = 0) :
    m.Lasting m.Stocked := by
  have hlasting := upkept_lasting horderly
  have hsubscribed : m.Enduring m.Subscribed := enduring_of_noted fun hs hnoted x hx own hown => by
    obtain ⟨a, ha, hrequests⟩ := hs x hx own hown
    exact ⟨a, (congrArg (fun kept => kept.1[x.1.number]?.join) hnoted).trans ha, hrequests⟩
  have hboth := hlasting.toEnduring.and hsubscribed
  have hiff (s : ModelState R M) : m.Stocked s ↔ (m.Upkept s ∧
      (m.root.approximation.isSome → ∃ a, m.Rooted s a)) ∧ m.Subscribed s :=
    ⟨fun h => ⟨⟨h.upkept, h.rooted⟩, h.subscribed⟩, fun h => ⟨h.1.1, h.1.2, h.2⟩⟩
  rw [show m.Stocked = _ from funext fun s => propext (hiff s)]
  refine ⟨hboth, fun hroot hs => hlasting.root hroot hs.1, fun {s n a b} hs ha hrole hcurrent =>
    ⟨hlasting.scheme hs.1 ha hrole hcurrent, fun x hx own hown => ?_⟩,
    fun {s a b qs} hs ha hadded => ⟨hlasting.requests hs.1 ha hadded, fun x hx own hown => ?_⟩⟩
  · obtain ⟨c, hc, hsubscribes⟩ := hs.2 x hx own hown
    by_cases hn : n = x.1.number
    · subst hn
      obtain rfl := Option.some.inj (ha.symm.trans hc)
      have hlt := (List.getElem?_eq_some_iff.1 (Option.join_eq_some_iff.1 ha)).1
      exact ⟨b, congrArg Option.join (List.getElem?_set_self hlt),
        hsubscribes.of_role hrole hcurrent⟩
    · exact ⟨c, (congrArg Option.join (List.getElem?_set_ne hn)).trans hc, hsubscribes⟩
  · obtain ⟨c, hc, hsubscribes⟩ := hs.2 x hx own hown
    have hn : m.root.number ≠ x.1.number := hroot ▸ ((hm.number_pos hx).1).ne
    exact ⟨c, (congrArg Option.join (List.getElem?_set_ne hn)).trans hc, hsubscribes⟩

/-- **What is kept about a model is up to date** after every history. -/
theorem stocked_of_reaches (horderly : m.Orderly) (h : ofGroup g settings = .ok m)
    (hstart : m.start = .ok first) {ops : List (Operation R)} (hops : m.Reaches first ops s) :
    m.Stocked s :=
  (stocked_lasting horderly (consistent_of_ofGroup h) (root_of_ofGroup h).1).of_reaches hops
    ⟨(sound_start hstart).upkept, fun hroot => rooted_start h hstart hroot,
      subscribed_start h hstart⟩

end Model

end Sensitivity
