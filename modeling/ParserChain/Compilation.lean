import ParserChain.Combinator.Written
import ParserChain.Compilation.Chain
import ParserChain.Program.Flaw

/-! Compilation of a sequence of steps into a program: its chain, closed by a success procedure, and
checked unless the configuration says otherwise. -/
namespace ParserChain

structure Config where
  /-- Check the shape of the finished chain. -/
  verify : Bool := true
  /-- Where a run starts. -/
  start : Position := ⟨1, 1⟩
  deriving DecidableEq

inductive CompileError
  | emptySequence (name : String)
  /-- A compile-time traverse whose inner steps do not fuse. -/
  | unsupportedCombinator (name : String) (c : Combinator)
  | brokenChain (name : String) (flaw : Flaw)

def CompileError.message : CompileError → String
  | .emptySequence name => "cannot compile \x60" ++ name ++ "\x60 with an empty combinator sequence"
  | .unsupportedCombinator name c =>
    "cannot compile \x60" ++ name ++ "\x60: unsupported combinator " ++ c.written
  | .brokenChain name flaw =>
    "compiled chain for \x60" ++ name ++ "\x60 is broken: " ++ flaw.message

/-- Refuses a program that departs from the shape of a chain. -/
def Program.verify (p : Program) : Except CompileError Unit :=
  match p.flaw? with
  | none => .ok ()
  | some flaw => .error (.brokenChain p.name flaw)

/-- The events of a compilation and what came of it. -/
structure Compilation where
  events : List Event
  result : Except CompileError Program

/-- The chain of a sequence with its success procedure; nothing follows where the chain is stuck. -/
def closedChain (name : String) (steps : List Combinator) : Draft :=
  (chain name 0 steps).andThen fun last => ⟨[.procedure (successLink name last)], .ok last⟩

/-- The program of the procedures of a draft. -/
def Draft.program (d : Draft) (config : Config) (name : String) : Program :=
  ⟨name, ⟨.link name 0, config.start⟩, d.procedures⟩

namespace Config

def compilation (config : Config) (name : String) (steps : List Combinator) : Compilation :=
  if steps.isEmpty then ⟨[], .error (.emptySequence name)⟩
  else
    let draft := closedChain name steps
    match draft.finish with
    | .error c => ⟨draft.events, .error (.unsupportedCombinator name c)⟩
    | .ok _ =>
      let program := draft.program config name
      ⟨draft.events, if config.verify then program.verify.map fun _ => program else .ok program⟩

def compile (config : Config) (name : String) (steps : List Combinator) :
    Except CompileError Program :=
  (config.compilation name steps).result

end Config

/-- Compiles with the usual configuration. -/
def compile (name : String) (steps : List Combinator) : Except CompileError Program :=
  Config.compile {} name steps

end ParserChain
