import Fibers.Script.Bench

set_option autoImplicit false

/-! # Answering requests

A request is a record whose field `op` says what it is about.
-/

namespace Fibers.Script

/-- The answer to a request. -/
def answer (request : Datum) : Datum :=
  match (request.field "op").asText with
  | "cause" => answerCause request
  | "exit" => answerExit request
  | "trace" => answerTrace request
  | "time" => answerTime request
  | "ids" => answerIds request
  | "sequence" => answerCounters request
  | "parse" => answerParse request
  | "config" => answerConfig request
  | "env" => answerServices request
  | "clock" => answerClocks request
  | "scheduler" => answerQueues request
  | "context" => answerContexts request
  | "lab" => answerLab request
  | "runtime" => answerRuntime request
  | "lab_test" => answerLabTest request
  | op => fault "bad op" op

end Fibers.Script
