import ExprLang.Eval.Monad
import ExprLang.Expr.Nodes

/-!
# Compilation

A source text is logged as the engine is asked to, read, and numbered.
-/

namespace ExprLang

/-- Makes the literals of a program new nodes. -/
def EvalM.number (program : Program) : EvalM Program := fun m =>
  let (program, nodes) := program.numbered m.nodes
  .done program { m with nodes }

/-- Compiles a source text (`Engine.Compile`). -/
def Engine.compile (engine : Engine) (source : String) : EvalM Program := do
  EvalM.logAll (engine.compileLog source)
  let program ← EvalM.lift (Program.ofSource source)
  EvalM.number program

end ExprLang
