import Patchwork.Renderer.Basic

/-! State cells. The n-th hook call of an invocation is about the n-th cell of the activation that is
being invoked. A cell is made by the first call about it and is only ever changed by its setters. -/
namespace Patchwork.Renderer

variable {D σ : Type} {δ : StateData} [HasStateData σ δ]

/-- Notes how many cells an invocation used, and reports if the one before used another number. -/
def checkCellCount (a : ActivationId) : RenderM D σ Unit := do
  if let some record := (← get).activations.find? a then
    let count := record.cursor
    updateActivation a ({ · with previousCount := some count })
    if let some previous := record.previousCount then
      if previous ≠ count then
        report (.cellCountChanged record.component.name a count previous)

/-- Invokes an activation's component: hook calls in `body` are about its cells, from the first one
on. -/
def invoking {α : Type} (a : ActivationId) (body : RenderM D σ (Fallible α)) :
    RenderM D σ (Fallible α) := do
  -- There is one cursor for the activation: an invocation from within starts it anew for the one outside too.
  updateActivation a ({ · with cursor := 0 })
  let result ← withCalls ({ · with current := some a }) body
  if result.isOk then checkCellCount a
  return result

def currentActivation? (s : Renderer D σ) : Option (ActivationId × Activation) :=
  s.calls.current.bind fun a => (s.activations.find? a).map (a, ·)

def makeCell (a : ActivationId) (datum : δ.Datum) : RenderM D σ CellId := do
  let index ← modifyGet fun s =>
    let (index, cells) := s.cells.alloc ⟨a, datum⟩
    (index, { s with cells })
  updateActivation a fun r => { r with cells := r.cells ++ [⟨index⟩] }
  return ⟨index⟩

/-- What the next cell holds and the cell's setter. If the cell does not exist yet, it is made with what
`initial` answers. -/
def useStateBy (type : δ.DataType) (initial : RenderM D σ δ.Datum) :
    RenderM D σ (Fallible (δ.Datum × Setter δ.DataType)) := do
  match (← get).currentActivation? with
  | none => return .error .invalidHookCall
  | some (a, record) =>
      let index := record.cursor
      updateActivation a ({ · with cursor := index + 1 })
      match record.cells[index]? with
      | some cell =>
          let datum := (← get).datum cell
          if δ.type datum = type then return .ok (datum, ⟨cell, type⟩)
          else return .error (.hookTypeMismatch index (δ.name type))
      | none =>
          report (.creatingCell index)
          -- This may itself ask for state, and those cells come before this one.
          let datum ← initial
          return .ok (datum, ⟨← makeCell a datum, type⟩)

/-- A hook call whose initial datum is ready. -/
def useState (type : δ.DataType) (initial : σ → δ.Datum × σ) :
    RenderM D σ (Fallible (δ.Datum × Setter δ.DataType)) :=
  useStateBy type do
    modifyGet fun s =>
      let (datum, store) := initial s.store
      (datum, { s with store })

/-- Asks for a re-render. The first request arms a flush task. -/
def requestUpdate (a : ActivationId) : RenderM D σ Unit := do
  if (← get).dropped then return
  if !(← get).activations.isRegistered a then report (.updateOfUnmounted a)
  else
    report (.scheduling a)
    let (outcome, scheduler) := (← get).scheduler.schedule a
    modify fun s => { s with scheduler }
    match outcome with
    | .alreadyPending => report .alreadyPending
    | .absorbed => pure ()
    | .armed =>
        report .armingFlush
        modify fun s => { s with waiting := s.waiting + 1 }

def getCell (setter : Setter δ.DataType) : RenderM D σ δ.Datum := do
  return (← get).datum setter.cell

/-- Sets a cell to what `next` makes of its datum, and asks for a re-render if that is another one. -/
def updateCell (setter : Setter δ.DataType) (next : δ.Datum → δ.Datum) : RenderM D σ Unit := do
  if let some cell := (← get).cell? setter.cell then
    let datum := next cell.datum
    if δ.same datum cell.datum then report .stateUnchanged
    else
      modify fun s => { s with cells := s.cells.modify setter.cell.index ({ · with datum }) }
      requestUpdate cell.owner

end Patchwork.Renderer
