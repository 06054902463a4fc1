import Sensitivity.Model.Linearize
import Sensitivity.Proofs.Action
import Sensitivity.Proofs.Block
import Sensitivity.Proofs.Table

/-!
# The blocks that a component holds

A component keeps its blocks of partials from one call to the next, so a block that a call does not
write is the one that an earlier call left. `ModelComponent.Holds` lists the blocks that it can come
to hold: zeros at the start, then what its calls write and what approximations store.

A component that makes the same writes in every call (`ModelComponent.Rewrites`) has no stale
blocks: what it holds at a pair that nothing approximates was there at the start or was written by
the last call (`ModelComponent.Rewrites.get?_eq_of_calls`). Keys and shapes never change, and forms
only where whole blocks are written (`ModelComponent.Held`).
-/

namespace Sensitivity

variable {R M : Type}

/-- A write to a block: new values for it, or a new block in its place. -/
inductive BlockWrite (R : Type) where
  | values (flat : Array R)
  | block (b : Block R)

/-- Whether a write brings a new block. -/
def BlockWrite.isBlock : BlockWrite R → Bool
  | values _ => false
  | block _ => true

/-- What a write makes of a block, if it can be made. -/
def BlockWrite.result? (old : Block R) : BlockWrite R → Option (Block R)
  | values flat => (old.setValues flat).toOption
  | block b => if old.rows = b.rows ∧ old.cols = b.cols then some b else none

theorem BlockWrite.shape_of_result {old new : Block R} {w : BlockWrite R}
    (h : w.result? old = some new) : new.rows = old.rows ∧ new.cols = old.cols := by
  cases w with
  | values flat =>
    exact Block.shape_eq_of_form (Block.form_of_setValues (Except.eq_ok_of_toOption h))
  | block b =>
    simp only [result?, Option.ite_none_right_eq_some, Option.some.injEq] at h
    obtain ⟨⟨hrows, hcols⟩, rfl⟩ := h
    exact ⟨hrows.symm, hcols.symm⟩

namespace Partials

/-- Makes a write to the block of a pair. -/
def write (p : Partials R) (w : (String × String) × BlockWrite R) :
    Except (DeclarationError R) (Partials R) :=
  match w.2 with
  | .values flat => p.set w.1.1 w.1.2 flat
  | .block b => p.insert w.1.1 w.1.2 b

variable {p p' q q' : Partials R} {w : (String × String) × BlockWrite R}
  {ws : List ((String × String) × BlockWrite R)}

/-- A write replaces one block, which has to be there. -/
theorem write_eq_ok : p.write w = .ok p' ↔ ∃ old new, p.blocks.get? w.1 = some old ∧
    w.2.result? old = some new ∧ p' = ⟨p.blocks.insert w.1 new⟩ := by
  obtain ⟨⟨of, wrt⟩, write⟩ := w
  cases hold : p.blocks.get? (of, wrt) with
  | none => cases write <;> simp [Partials.write, set, insert, block, hold, bind, Except.bind]
  | some old =>
    cases write with
    | values flat =>
      simp only [Partials.write, set, block, hold, BlockWrite.result?, bind, Except.bind]
      cases hset : old.setValues flat <;>
        simp [hset, pure, Except.pure, Except.toOption, throw, throwThe, MonadExceptOf.throw, eq_comm]
    | block b =>
      simp only [Partials.write, insert, block, hold, BlockWrite.result?, bind, Except.bind]
      by_cases hshape : old.rows = b.rows ∧ old.cols = b.cols
      · simp [hshape, pure, Except.pure, eq_comm]
      · simp [hshape, throw, throwThe, MonadExceptOf.throw]

/-- A write keeps the keys and all other blocks. -/
theorem keys_of_write (h : p.write w = .ok p') : p'.blocks.keys = p.blocks.keys := by
  obtain ⟨old, new, hold, -, rfl⟩ := write_eq_ok.1 h
  have hkey : w.1 ∈ p.blocks.keys := by
    by_contra hnot
    rw [(Table.get?_eq_none_iff _ _).2 hnot] at hold
    cases hold
  rw [Table.keys_insert, if_pos hkey]

theorem get?_of_write (h : p.write w = .ok p') {pair : String × String} (hne : pair ≠ w.1) :
    p'.blocks.get? pair = p.blocks.get? pair := by
  obtain ⟨old, new, -, -, rfl⟩ := write_eq_ok.1 h
  rw [Table.get?_insert, if_neg hne]

/-- Writes elsewhere leave a block alone. -/
theorem get?_of_writes (h : ws.foldlM write p = .ok p') {pair : String × String}
    (hne : pair ∉ ws.map Prod.fst) : p'.blocks.get? pair = p.blocks.get? pair := by
  induction ws generalizing p with
  | nil =>
    cases h
    rfl
  | cons w rest ih =>
    rw [List.map_cons, List.mem_cons, not_or] at hne
    rw [List.foldlM_cons] at h
    obtain ⟨p₁, hw, hrest⟩ := Except.bind_eq_ok.1 h
    exact (ih hrest hne.2).trans (get?_of_write hw hne.1)

/-- **Writes settle the blocks that they reach**, where they find blocks of one form or bring a new
one. -/
theorem get?_eq_of_writes (hp : ws.foldlM write p = .ok p') (hq : ws.foldlM write q = .ok q')
    {pair : String × String} (hmem : pair ∈ ws.map Prod.fst)
    (hform : (p.blocks.get? pair).map Block.form = (q.blocks.get? pair).map Block.form ∨
      (pair, true) ∈ ws.map fun w => (w.1, w.2.isBlock)) :
    p'.blocks.get? pair = q'.blocks.get? pair := by
  induction ws generalizing p q with
  | nil => cases hmem
  | cons w rest ih =>
    rw [List.foldlM_cons] at hp hq
    obtain ⟨p₁, hp₁, hp⟩ := Except.bind_eq_ok.1 hp
    obtain ⟨q₁, hq₁, hq⟩ := Except.bind_eq_ok.1 hq
    rw [List.map_cons, List.mem_cons] at hform hmem
    by_cases hpair : pair = w.1
    · obtain ⟨old, new, hold, hnew, hp'⟩ := write_eq_ok.1 hp₁
      obtain ⟨old', new', hold', hnew', hq'⟩ := write_eq_ok.1 hq₁
      have hone : p₁.blocks.get? pair = some new ∧ q₁.blocks.get? pair = some new' := by
        constructor
        · rw [hp', Table.get?_insert, if_pos hpair]
        · rw [hq', Table.get?_insert, if_pos hpair]
      by_cases heq : new = new'
      · -- equal from here on, whether or not there is another write
        have hboth : p₁.blocks.get? pair = q₁.blocks.get? pair := by rw [hone.1, hone.2, heq]
        by_cases hrest : pair ∈ rest.map Prod.fst
        · exact ih hp hq hrest (.inl (by rw [hboth]))
        · rw [get?_of_writes hp hrest, get?_of_writes hq hrest, hboth]
      · -- only new values can differ, and only in blocks of two forms, so a new block is to come
        have hlater : (pair, true) ∈ rest.map fun w => (w.1, w.2.isBlock) := by
          obtain ⟨pair', write⟩ := w
          cases write with
          | block b =>
            simp only [BlockWrite.result?, Option.ite_none_right_eq_some, Option.some.injEq]
              at hnew hnew'
            exact absurd (hnew.2.symm.trans hnew'.2) heq
          | values flat =>
            rcases hform with hform | hform
            · rw [hpair, hold, hold', Option.map_some, Option.map_some, Option.some.injEq] at hform
              simp only [BlockWrite.result?, Block.setValues_congr hform] at hnew hnew'
              exact absurd (Option.some.inj (hnew.symm.trans hnew')) heq
            · rcases hform with hform | hform
              · cases (Prod.mk.inj hform).2
              · exact hform
        have hrest : pair ∈ rest.map Prod.fst := by
          obtain ⟨w', hw', he⟩ := List.mem_map.1 hlater
          exact List.mem_map.2 ⟨w', hw', (Prod.mk.inj he).1⟩
        exact ih hp hq hrest (.inr hlater)
    · refine ih hp hq (hmem.resolve_left hpair) ?_
      rw [get?_of_write hp₁ hpair, get?_of_write hq₁ hpair]
      exact hform.imp_right fun h => h.resolve_left fun he => hpair (Prod.mk.inj he).1

end Partials

namespace ModelComponent

variable [Scalar R] (c : ModelComponent R M)

/-- The blocks at the start: zeros. -/
def initial : Partials R := .zeros c.partials c.layout

/-- Whether one of the methods approximates the block of a pair. -/
def Approximates (pair : String × String) : Prop :=
  ∃ e ∈ c.methods, ∃ k ∈ e.2, ∃ p, c.partials[k]? = some p ∧ (p.of, p.wrt) = pair ∧
    (MethodState.request? p).isSome

/-- The blocks that a component can come to hold. What an approximation stores has the form that
the block had at the start. -/
inductive Holds : Partials R → Prop
  | start : Holds c.initial
  | call {p : Partials R} (x : Array R) (μ : M) (h : Holds p)
      (ha : ((c.component.computePartials x).perform (μ, p)).1.Answers) :
      Holds ((c.component.computePartials x).perform (μ, p)).2.2
  | store {p p' : Partials R} {pair : String × String} {old b : Block R} (h : Holds p)
      (hpair : c.Approximates pair) (hold : c.initial.blocks.get? pair = some old)
      (hform : b.form = old.form) (hinsert : p.insert pair.1 pair.2 b = .ok p') : Holds p'

/-- A component that makes the same writes in every call. At all inputs it writes to the blocks of
the same pairs in the same order, whole blocks at the same places, unless an error ends the call
before; and at the same inputs the values and the answer are the same, whatever blocks and memory
the call finds. -/
def Rewrites (targets : List ((String × String) × Bool)) : Prop :=
  ∀ x, ∃ (ws : List ((String × String) × BlockWrite R)) (answer : Outcome (DeclarationError R) Unit),
    (ws.map fun w => (w.1, w.2.isBlock)) <+: targets ∧
    (answer = .ok () → ws.length = targets.length) ∧
    ∀ μ p, c.Holds p → ∃ p', ws.foldlM Partials.write p = .ok p' ∧
      ((c.component.computePartials x).perform (μ, p)).1 = answer ∧
      ((c.component.computePartials x).perform (μ, p)).2.2 = p'

variable {c} {targets : List ((String × String) × Bool)} {p q : Partials R}

/-- What holds of the blocks at the start and survives writes and stores holds of all blocks. -/
theorem Rewrites.of_holds (hc : c.Rewrites targets) {P : Partials R → Prop} (hstart : P c.initial)
    (hwrite : ∀ p p' (w : (String × String) × BlockWrite R), (w.1, w.2.isBlock) ∈ targets →
      P p → p.write w = .ok p' → P p')
    (hstore : ∀ p p' (pair : String × String) (old b : Block R), c.Approximates pair →
      c.initial.blocks.get? pair = some old → b.form = old.form → P p →
        p.write (pair, .block b) = .ok p' → P p') (h : c.Holds p) : P p := by
  induction h with
  | start => exact hstart
  | @call p x μ hp ha ih =>
    obtain ⟨ws, answer, htargets, -, hcall⟩ := hc x
    obtain ⟨p', hwrites, -, hp'⟩ := hcall μ p hp
    rw [hp']
    exact Except.of_foldlM_eq_ok
      (fun p w hw p' => hwrite p p' w (htargets.subset (List.mem_map_of_mem hw))) ih hwrites
  | store hp hpair hold hform hinsert ih => exact hstore _ _ _ _ _ hpair hold hform ih hinsert

/-- What all blocks have in common with those at the start. -/
structure Held (c : ModelComponent R M) (targets : List ((String × String) × Bool))
    (p : Partials R) : Prop where
  keys : p.blocks.keys = c.initial.blocks.keys
  shape : ∀ pair, (p.blocks.get? pair).map (fun b => (b.rows, b.cols)) =
    (c.initial.blocks.get? pair).map fun b => (b.rows, b.cols)
  form : ∀ pair, (pair, true) ∉ targets →
    (p.blocks.get? pair).map Block.form = (c.initial.blocks.get? pair).map Block.form
  untouched : ∀ pair, pair ∉ targets.map Prod.fst → ¬ c.Approximates pair →
    p.blocks.get? pair = c.initial.blocks.get? pair

/-- A write keeps what blocks have in common, as far as it is an expected one. -/
theorem Held.write {p p' : Partials R} (h : c.Held targets p)
    {w : (String × String) × BlockWrite R} (hw : p.write w = .ok p')
    (hform : (w.1, true) ∉ targets → ∀ old new, p.blocks.get? w.1 = some old →
      w.2.result? old = some new → new.form = old.form)
    (htouched : w.1 ∉ targets.map Prod.fst → c.Approximates w.1) : c.Held targets p' := by
  obtain ⟨old, new, hold, hnew, hp'⟩ := Partials.write_eq_ok.1 hw
  have hget : p'.blocks.get? w.1 = some new := by rw [hp', Table.get?_insert, if_pos rfl]
  obtain ⟨hrows, hcols⟩ := BlockWrite.shape_of_result hnew
  refine ⟨(Partials.keys_of_write hw).trans h.keys, fun pair => ?_, fun pair hpair => ?_,
    fun pair hpair happrox => ?_⟩ <;> by_cases he : pair = w.1
  · rw [← h.shape, he, hget, hold, Option.map_some, Option.map_some, hrows, hcols]
  · rw [Partials.get?_of_write hw he, h.shape]
  · rw [← h.form pair hpair, he, hget, hold, Option.map_some, Option.map_some,
      hform (he ▸ hpair) old new hold hnew]
  · rw [Partials.get?_of_write hw he, h.form pair hpair]
  · exact absurd (htouched (he ▸ hpair)) (he ▸ happrox)
  · rw [Partials.get?_of_write hw he, h.untouched pair hpair happrox]

/-- **All blocks that a component can hold have this in common.** -/
theorem Rewrites.held (hc : c.Rewrites targets) (h : c.Holds p) : c.Held targets p := by
  refine hc.of_holds ⟨rfl, fun _ => rfl, fun _ _ => rfl, fun _ _ _ => rfl⟩
    (fun p p' w hmem hp hw => ?_) (fun p p' pair old b hpair hold hform hp hw => ?_) h
  · refine hp.write hw (fun hnot old new _ hnew => ?_) fun hnot =>
      absurd (List.mem_map_of_mem hmem) hnot
    obtain ⟨pair, write⟩ := w
    cases write with
    | values flat => exact Block.form_of_setValues (Except.eq_ok_of_toOption hnew)
    | block b => exact absurd hmem hnot
  · refine hp.write hw (fun hnot old' new hold' hnew => ?_) fun _ => hpair
    have hsame := hp.form pair hnot
    rw [hold, hold', Option.map_some, Option.map_some, Option.some.injEq] at hsame
    simp only [BlockWrite.result?, Option.ite_none_right_eq_some, Option.some.injEq] at hnew
    rw [← hnew.2, hform, hsame]

/-- Calls at the same inputs answer the same. -/
theorem Rewrites.answer_eq (hc : c.Rewrites targets) (x : Array R) {μ ν : M} (hp : c.Holds p)
    (hq : c.Holds q) : ((c.component.computePartials x).perform (μ, p)).1 =
      ((c.component.computePartials x).perform (ν, q)).1 := by
  obtain ⟨ws, answer, -, -, hcall⟩ := hc x
  obtain ⟨p', -, hpa, -⟩ := hcall μ p hp
  obtain ⟨q', -, hqa, -⟩ := hcall ν q hq
  rw [hpa, hqa]

/-- **Calls at the same inputs leave the same blocks**, those apart that are approximated. -/
theorem Rewrites.get?_eq_of_calls (hc : c.Rewrites targets) {x : Array R} {μ ν : M}
    (hp : c.Holds p) (hq : c.Holds q)
    (hok : ((c.component.computePartials x).perform (μ, p)).1 = .ok ()) {pair : String × String}
    (hpair : ¬ c.Approximates pair) :
    ((c.component.computePartials x).perform (μ, p)).2.2.blocks.get? pair =
      ((c.component.computePartials x).perform (ν, q)).2.2.blocks.get? pair := by
  obtain ⟨ws, answer, htargets, hlength, hcall⟩ := hc x
  obtain ⟨p', hpw, hpa, hp'⟩ := hcall μ p hp
  obtain ⟨q', hqw, hqa, hq'⟩ := hcall ν q hq
  rw [hp', hq']
  have htargets : (ws.map fun w => (w.1, w.2.isBlock)) = targets :=
    htargets.eq_of_length (by rw [List.length_map, hlength (hpa.symm.trans hok)])
  have hpairs : ws.map Prod.fst = targets.map Prod.fst := by
    rw [← htargets, List.map_map]
    rfl
  by_cases hmem : pair ∈ ws.map Prod.fst
  · refine Partials.get?_eq_of_writes hpw hqw hmem ?_
    by_cases hblock : (pair, true) ∈ targets
    · exact .inr (htargets ▸ hblock)
    · exact .inl (((hc.held hp).form pair hblock).trans ((hc.held hq).form pair hblock).symm)
  · rw [Partials.get?_of_writes hpw hmem, Partials.get?_of_writes hqw hmem,
      (hc.held hp).untouched pair (hpairs ▸ hmem) hpair,
      (hc.held hq).untouched pair (hpairs ▸ hmem) hpair]

/-- Whether a block is stored at a pair depends on the pair and on the shape of the block. -/
theorem Rewrites.insert_cases (hc : c.Rewrites targets) (pair : String × String) (b : Block R) :
    (∃ e, ∀ p, c.Holds p → p.insert pair.1 pair.2 b = .error e) ∨
      (∀ p, c.Holds p → p.insert pair.1 pair.2 b = .ok ⟨p.blocks.insert pair b⟩) ∧
        ∃ old, c.initial.blocks.get? pair = some old ∧ old.rows = b.rows ∧ old.cols = b.cols := by
  cases hold : c.initial.blocks.get? pair with
  | none =>
    refine .inl ⟨.unknownVariable (DeclarationError.partialsName pair.1 pair.2), fun p hp => ?_⟩
    have hshape := (hc.held hp).shape pair
    rw [hold, Option.map_none, Option.map_eq_none_iff] at hshape
    simp only [Partials.insert, Partials.block, hshape, bind, Except.bind]
  | some old =>
    have hget {p : Partials R} (hp : c.Holds p) : ∃ own, p.blocks.get? pair = some own ∧
        own.rows = old.rows ∧ own.cols = old.cols := by
      have hshape := (hc.held hp).shape pair
      rw [hold, Option.map_some, Option.map_eq_some_iff] at hshape
      obtain ⟨own, hown, hsame⟩ := hshape
      exact ⟨own, hown, Prod.mk.inj hsame⟩
    by_cases hshape : old.rows = b.rows ∧ old.cols = b.cols
    · refine .inr ⟨fun p hp => ?_, old, rfl, hshape⟩
      obtain ⟨own, hown, hrows, hcols⟩ := hget hp
      have hown' : own.rows = b.rows ∧ own.cols = b.cols :=
        ⟨hrows.trans hshape.1, hcols.trans hshape.2⟩
      simp only [Partials.insert, Partials.block, hown, bind, Except.bind, if_pos hown']
      rfl
    · refine .inl ⟨.shapeMismatch ⟨DeclarationError.partialsName pair.1 pair.2,
        old.rows * old.cols, b.rows * b.cols⟩, fun p hp => ?_⟩
      obtain ⟨own, hown, hrows, hcols⟩ := hget hp
      simp only [Partials.insert, Partials.block, hown, bind, Except.bind, hrows, hcols,
        if_neg hshape]
      rfl

/-- The block at the start of a declared pair. -/
theorem get?_initial (hdistinct : (c.partials.map fun p => (p.of, p.wrt)).Nodup)
    {p : DeclaredPartial R} (hp : p ∈ c.partials) : ∃ rows cols,
      c.initial.blocks.get? (p.of, p.wrt) = some (.zeros rows cols p.provision.pattern) := by
  refine ⟨_, _, (Table.get?_ofList ?_ _).trans (Table.find_of_mem ?_ (List.mem_map_of_mem hp))⟩
  · rwa [List.map_map]
  · rwa [List.map_map]

end ModelComponent

end Sensitivity
