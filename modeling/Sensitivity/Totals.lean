import Sensitivity.Model.GroupScope

/-!
# Total derivatives

The derivatives of responses by design variables, a block for each pair of names.
Either the root approximates them as a whole (`Model.approximatedTotals`), or they
follow the chain rule (`Model.chainRuleTotals`): `(I - A) X = B`, where `A` holds the
partials of every component at the places of their outputs and of the sources of their
inputs, and `B` seeds each selected entry of each design variable. A group inside the
model that approximates its derivatives contributes approximated blocks in place of
the partials of its components. Blocks that lie on no path from a design variable to a
response are left out.
-/

namespace Sensitivity

/-- A design variable or a response, as an optimizer sees it. -/
structure DriverVariable (R : Type) where
  name : String
  /-- The entries that count; all when absent. -/
  entries : Option (List Nat)
  /-- The reference that derivatives are scaled with, if it is not the variable's own. -/
  reference : Option R

namespace DriverVariable

/-- All entries of a variable. -/
def whole {R : Type} (name : String) : DriverVariable R := ⟨name, none, none⟩

end DriverVariable

/-- Total derivatives by the names they were asked for. -/
abbrev Totals (R : Type) := Table (String × String) (DenseMatrix R)

/-- A block of derivatives between two variables, by their numbers. -/
structure LinkBlock (R : Type) where
  of : Nat
  wrt : Nat
  matrix : DenseMatrix R

namespace Model

variable {R M : Type} (m : Model R M)

/-- The variable that stands for a name. -/
def effectiveVariable (name : String) : Except (ModelError R) (ModelVariable R) := do
  let id ← m.variableId name
  match m.variableAt? (m.effective id) with
  | some v => return v
  | none => throw (.unknownVariable name)

/-- The selected entries of a driver variable. -/
def selection (v : DriverVariable R) : Except (ModelError R) (List Nat) := do
  let size := (← m.lookup v.name).size
  match v.entries with
  | none => return List.range size
  | some entries =>
    match entries.find? (size ≤ ·) with
    | some bad => throw (.index bad v.name size)
    | none => return entries

/-- The pairs of two lists, the second varying faster. -/
def pairs (of wrt : List (DriverVariable R)) : List (DriverVariable R × DriverVariable R) :=
  of.flatMap fun o => wrt.map fun w => (o, w)

/-- A request for each pair, in the names of the variables that stand for them. -/
def totalRequests (of wrt : List (DriverVariable R)) (settings : Settings R) :
    Except (ModelError R) (List (Request R)) :=
  (pairs of wrt).mapM fun (o, w) => do
    return { Request.whole (← m.effectiveVariable o.name).name (← m.effectiveVariable w.name).name
        settings with
      ofEntries := o.entries, wrtEntries := w.entries }

/-- The matrix that a block means. -/
def denseOf [Scalar R] (b : Block R) : ModelWork R M (DenseMatrix R) :=
  .ofOutcome (.ofOption b.toDense?)

section Chain

variable [Scalar R]

/-- The matrix `I - A` of some blocks: each one stands in the rows of its output and the
columns of the output that its input reads. -/
def chainMatrix (blocks : List (LinkBlock R)) : DenseMatrix R :=
  let placed := blocks.filterMap fun b => do
    let row := (← m.variableAt? b.of).start
    let col := (← (m.source? b.wrt).bind m.variableAt?).start
    return (row, col, b.matrix)
  placed.foldl (fun a (row, col, b) => a.combineAt (· - ·) row col b)
    (.identity m.outputLength)

/-- A column of the right-hand side: entry `i` of a design variable. An output is
seeded by itself, an unconnected input by the columns of its blocks. -/
def seedColumn (blocks : List (LinkBlock R)) (wrt : Nat) (v : ModelVariable R) (i : Nat) :
    Nat → R :=
  match v.kind with
  | .output => fun row => if row = v.start + i then 1 else 0
  | .input =>
    let placed := (blocks.filter fun b => b.wrt = wrt).filterMap fun b => do
      return ((← m.variableAt? b.of).start, b.matrix)
    fun row => placed.foldl (fun sum (start, b) =>
      if start ≤ row ∧ row < start + b.rows then sum + b.entry (row - start) i else sum) 0

/-- The block of a response by a design variable, from the columns `x` of the solution
that belong to the design variable, which start at `col`. An unconnected input only
depends on itself. -/
def totalBlock (x : DenseMatrix R) (of : Nat × ModelVariable R) (rows : List Nat) (wrt : Nat)
    (cols : List Nat) (col : Nat) : DenseMatrix R :=
  .tabulate rows.length cols.length fun r k =>
    match of.2.kind with
    | .output => x.entry (of.2.start + rows.getD r 0) (col + k)
    | .input => if of.1 = wrt ∧ rows[r]? = cols[k]? then 1 else 0

end Chain

variable [Scalar R] [DirectSolver R]

/-- The approximated blocks of a group that approximates its derivatives. -/
def groupBlocks (g : ModelGroup R) (body : Schedule R) : ModelWork R M (List (LinkBlock R)) := do
  match (← get).schemes[g.number]?.join with
  | none => return []
  | some scheme =>
    let blocks ← m.approximateGroup g body scheme
    blocks.entries.mapM fun ((of, wrt), block) => do
      let of ← Action.ofOutcome (.ofExcept (m.variableId of))
      let wrt ← Action.ofOutcome (.ofExcept (m.variableId wrt))
      return ⟨of, wrt, ← denseOf block⟩

/-- Whether a pair of an input and an output lies on a path from a design variable to a
response. -/
def onPath (reached reaching : List Bool) (ends : Nat × Nat) : Bool :=
  reached.getD ends.1 false && reaching.getD ends.2 false

/-- The relevant partials of a component, linearized unless there are none. -/
def componentBlocks (reached reaching : List Bool) (c : Nat) :
    ModelWork R M (List (LinkBlock R)) := do
  let component ← m.component c
  let relevant := component.partials.map fun p =>
    (component.ends? p).any (onPath reached reaching)
  if !relevant.any id then return []
  m.linearize c (some relevant)
  let kept ← kept c
  let wanted := (component.partials.zip relevant).filterMap fun (p, on) => do
    if on then
      let (wrt, of) ← component.ends? p
      return (of, wrt, ← kept.partials.blocks.get? (p.of, p.wrt))
    else none
  wanted.mapM fun (of, wrt, block) => do return ⟨of, wrt, ← denseOf block⟩

/-- The relevant blocks of a schedule. -/
def collectBlocks (reached reaching : List Bool) :
    Schedule R → ModelWork R M (List (LinkBlock R))
  | .done => return []
  | .component c rest => do
    let own ← m.componentBlocks reached reaching c
    return own ++ (← collectBlocks reached reaching rest)
  | .group g body rest => do
    let own ← if g.approximation.isSome then
        let edges := g.members.flatMap fun c => (m.graph.componentEdges? c).getD []
        if edges.any (onPath reached reaching) then m.groupBlocks g body else pure []
      else collectBlocks reached reaching body
    return own ++ (← collectBlocks reached reaching rest)

/-- Total derivatives by the chain rule. -/
def chainRuleTotals (of wrt : List (DriverVariable R)) : ModelWork R M (Totals R) := do
  let identify (v : DriverVariable R) : ModelWork R M (Nat × ModelVariable R × List Nat) :=
    .ofOutcome <| .ofExcept do
      let id := m.effective (← m.variableId v.name)
      return (id, ← m.effectiveVariable v.name, ← m.selection v)
  let responses ← of.mapM identify
  let designs ← wrt.mapM identify
  let reached ← Action.ofOutcome (.ofOption (m.graph.reachableFrom? (designs.map (·.1))))
  let reaching ← Action.ofOutcome (.ofOption (m.graph.reaching? (responses.map (·.1))))
  let blocks ← m.collectBlocks reached reaching m.schedule
  let columns := designs.flatMap fun (id, v, entries) => entries.map (m.seedColumn blocks id v)
  let seeds : DenseMatrix R := .tabulate m.outputLength columns.length fun r c =>
    (columns[c]?.map fun column => column r).getD 0
  let x ← Action.ofOutcome <|
    (Outcome.ofExcept (solveSystem (m.chainMatrix blocks) seeds)).mapError .system
  let starts := (wrt.zip designs).foldl (fun (found, col) (w, id, _, entries) =>
    (found ++ [(w, id, entries, col)], col + entries.length))
    (([] : List (DriverVariable R × Nat × List Nat × Nat)), 0)
  return .ofList <| (of.zip responses).flatMap fun (o, id, v, rows) =>
    starts.1.map fun (w, wid, cols, col) =>
      ((o.name, w.name), totalBlock x (id, v) rows wid cols col)

/-- Gives the scheme of the root the blocks of some requests, unless it has them. -/
def prepareRoot (scheme : Scheme R) (requests : List (Request R)) : ModelWork R M (Scheme R) := do
  if (← get).rootRequests == some requests then return scheme
  let scheme ← Action.ofOutcome <|
    (Outcome.ofExcept (scheme.clearRequests.addRequests requests)).mapError .approximation
  modify fun s => { keepScheme m.root scheme s with rootRequests := some requests }
  return scheme

/-- The block of a pair that was approximated under other names. -/
def namedBlock (blocks : Jacobian R) (names : DriverVariable R × DriverVariable R)
    (q : Request R) : ModelWork R M ((String × String) × DenseMatrix R) := do
  let (o, w) := names
  match blocks.get? (q.of, q.wrt) with
  | some block => return ((o.name, w.name), ← denseOf block)
  | none =>
    let of := o.name
    let wrt := w.name
    Action.fail (.unknownVariable s!"totals of '{of}' wrt '{wrt}'")

/-- Total derivatives as the root approximates them. -/
def approximatedTotals (of wrt : List (DriverVariable R)) (settings : Settings R) :
    ModelWork R M (Totals R) := do
  let requests ← Action.ofOutcome (.ofExcept (m.totalRequests of wrt settings))
  let scheme := (← get).schemes[m.root.number]?.join.getD
    (.empty m.root.label .group m.policy)
  let scheme ← m.prepareRoot scheme requests
  let blocks ← m.approximateGroup m.root m.schedule scheme
  return .ofList (← ((pairs of wrt).zip requests).mapM fun (names, q) =>
    namedBlock blocks names q)

/-- The total derivatives of `of` by `wrt` at the current state. -/
def computeTotals (of wrt : List (DriverVariable R)) : ModelWork R M (Totals R) := do
  if of.isEmpty || wrt.isEmpty then Action.fail .noTotals
  Action.forEach (of ++ wrt) fun v => do
    discard <| Action.ofOutcome (.ofExcept (m.selection v))
  match m.root.approximation with
  | some settings => m.approximatedTotals of wrt settings
  | none => m.chainRuleTotals of wrt

/-- The reference of a driver variable: its own, else that of the variable. -/
def referenceOf (v : DriverVariable R) : Except (ModelError R) R :=
  match v.reference with
  | some r => .ok r
  | none => (m.lookup v.name).map fun v => v.spec.reference

/-- Multiplies the block of a pair by the quotient of its references. -/
def scalePair (totals : Totals R) (names : DriverVariable R × DriverVariable R) :
    Except (ModelError R) (Totals R) := do
  let (o, w) := names
  let factor := (← m.referenceOf w) / (← m.referenceOf o)
  match totals.get? (o.name, w.name) with
  | some block => return totals.insert (o.name, w.name) (block.map fun v => v * factor)
  | none => return totals

/-- Total derivatives in scaled units: `d (of / reference of) / d (wrt / reference wrt)`. -/
def computeScaledTotals (of wrt : List (DriverVariable R)) : ModelWork R M (Totals R) := do
  let totals ← m.computeTotals of wrt
  Action.ofOutcome (.ofExcept ((pairs of wrt).foldlM m.scalePair totals))

end Model

end Sensitivity
