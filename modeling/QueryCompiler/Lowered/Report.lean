import QueryCompiler.Console
import QueryCompiler.Lowered.Program

/-!
# Reports of a lowering

At the level for debugging a lowering says which operation it has compiled, operation by operation
up to the first that fails, and at its end how much was lowered in what time.
-/

namespace QueryCompiler.Lowered

/-- The words about an operation. -/
def operationWords (name : Text) (o : Operation) : List Text :=
  ["Compiled operation", name, "with", Text.ofNat o.fragmentsReferenced.length,
    "referenced fragments", o.operationId.getD []]

/-- The words about operations up to the first that cannot be lowered. -/
def operationReports (lower : Typed.Operation → Except LoweringError Operation) :
    List (Text × Typed.Operation) → List (List Text)
  | [] => []
  | (name, o) :: rest =>
    match lower o with
    | .error _ => []
    | .ok lowered => operationWords name lowered :: operationReports lower rest

/-- The words about a program that was lowered in a number of milliseconds. -/
def summaryWords (p : Program) (elapsed : Text) : List Text :=
  ["Lowered", Text.ofNat p.operations.size, "operations and", Text.ofNat p.fragments.size,
    "fragments in", elapsed, "ms"]

/-- What a lowering of a program reports to a console. -/
def report (c : Console) (p : Typed.Program) (stamp elapsed : Text) : List LogLine :=
  let operations := operationReports (Operation.ofTyped {} p) p.operations.entries
  let summary := match Program.ofTyped p with
    | .error _ => []
    | .ok lowered => [summaryWords lowered elapsed]
  (operations ++ summary).flatMap (c.message .debug stamp)

end QueryCompiler.Lowered
