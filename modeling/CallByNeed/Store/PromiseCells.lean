import CallByNeed.Store.Promise

/-!
The three cells a promise is kept in: its stage, its value and its environment. They are written one by
one, and only the stage is looked at before. A promise state stands for the cells that go together: a value
exactly for an evaluated promise, an environment exactly for any other.
-/
namespace CallByNeed

/-- How far a promise has come. -/
inductive Stage where
  | unevaluated
  | underEvaluation
  | evaluated
deriving DecidableEq, Repr, Inhabited

def Stage.name : Stage → String
  | unevaluated => "Unevaluated"
  | underEvaluation => "UnderEvaluation"
  | evaluated => "Evaluated"

structure PromiseCells where
  stage : Stage
  value : Option Value
  env : Option EnvId

namespace PromiseCells

/-- The cells of a new promise, with or without a value computed ahead. -/
def deferred (env : EnvId) : PromiseCells := ⟨.unevaluated, none, some env⟩

/-- The cells of a promise that starts out evaluated. -/
def settled (v : Value) : PromiseCells := ⟨.evaluated, some v, none⟩

def beginEvaluation (c : PromiseCells) : Except Failure PromiseCells :=
  match c.stage with
  | .unevaluated => .ok { c with stage := .underEvaluation }
  | other => .error (.internal s!"cannot start evaluating a promise that is {other.name}")

def fulfil (v : Value) (c : PromiseCells) : PromiseCells :=
  let c := { c with value := some v }
  let c := { c with stage := .evaluated }
  { c with env := none }

/-- Back to the start after an evaluation that failed, or that only probed. -/
def reset (c : PromiseCells) : PromiseCells :=
  if c.stage = .underEvaluation then { c with stage := .unevaluated } else c

/-- The cells go together. -/
structure Coherent (c : PromiseCells) : Prop where
  value : c.value.isSome ↔ c.stage = .evaluated
  env : c.env.isNone ↔ c.stage = .evaluated

variable {c d : PromiseCells}

theorem coherent_deferred (env : EnvId) : (deferred env).Coherent := by constructor <;> simp [deferred]

theorem coherent_settled (v : Value) : (settled v).Coherent := by constructor <;> simp [settled]

theorem beginEvaluation_eq_ok :
    c.beginEvaluation = .ok d ↔ c.stage = .unevaluated ∧ d = { c with stage := .underEvaluation } := by
  obtain ⟨stage, value, env⟩ := c
  cases stage <;> simp [beginEvaluation, eq_comm]

theorem Coherent.beginEvaluation (coherent : c.Coherent) (begun : c.beginEvaluation = .ok d) :
    d.Coherent := by
  obtain ⟨start, rfl⟩ := beginEvaluation_eq_ok.mp begun
  obtain ⟨value, env⟩ := coherent
  rw [start] at value env
  exact ⟨by simpa using value, by simpa using env⟩

theorem coherent_fulfil (v : Value) (c : PromiseCells) : (c.fulfil v).Coherent := by
  constructor <;> simp [fulfil]

theorem Coherent.reset (coherent : c.Coherent) : c.reset.Coherent := by
  unfold PromiseCells.reset
  split
  · rename_i running
    obtain ⟨value, env⟩ := coherent
    rw [running] at value env
    exact ⟨by simpa using value, by simpa using env⟩
  · exact coherent

end PromiseCells

namespace PromiseState

def cells : PromiseState → PromiseCells
  | unevaluated env => .deferred env
  | underEvaluation env => ⟨.underEvaluation, none, some env⟩
  | evaluated v => .settled v

theorem cells_injective {state other : PromiseState} (same : state.cells = other.cells) : state = other := by
  cases state <;> cases other <;> cases same <;> rfl

theorem coherent_cells (state : PromiseState) : state.cells.Coherent := by
  cases state with
  | unevaluated env => exact PromiseCells.coherent_deferred env
  | underEvaluation env => constructor <;> simp [cells]
  | evaluated v => exact PromiseCells.coherent_settled v

/-- The cells that go together are those of a promise state. -/
theorem coherent_iff (c : PromiseCells) : c.Coherent ↔ ∃ state : PromiseState, state.cells = c := by
  constructor
  · intro coherent
    obtain ⟨stage, value, env⟩ := c
    obtain ⟨valued, placed⟩ := coherent
    cases stage <;> cases value <;> cases env <;> simp at valued placed
    case unevaluated.none.some env => exact ⟨.unevaluated env, rfl⟩
    case underEvaluation.none.some env => exact ⟨.underEvaluation env, rfl⟩
    case evaluated.some.none v => exact ⟨.evaluated v, rfl⟩
  · rintro ⟨state, rfl⟩
    exact state.coherent_cells

theorem cells_reset (state : PromiseState) : state.reset.cells = state.cells.reset := by
  cases state <;> rfl

theorem cells_fulfil (state : PromiseState) (v : Value) :
    (evaluated v).cells = state.cells.fulfil v := by
  cases state <;> rfl

theorem cells_beginEvaluation (state : PromiseState) :
    state.cells.beginEvaluation = match state with
      | unevaluated env => .ok (underEvaluation env).cells
      | other => .error (.internal s!"cannot start evaluating a promise that is {other.name}") := by
  cases state <;> rfl

end PromiseState

namespace Store

/-- The cells of all promises. -/
def cells (s : Store) : Array PromiseCells := s.promises.map (·.state.cells)

end Store
end CallByNeed
