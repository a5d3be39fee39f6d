import FlowReport.Table
import FlowReport.Text.CharClass

/-!
# Configuration

The names of the programs that a report calls and the variables that they see, as far as the
environment does not say otherwise. A variable that is not set, or blank, counts as not given.
-/

namespace FlowReport

/-- The programs of a report. -/
structure Config where
  decompiler : Text := "ll2go2"
  extractor : Text := "ll2dot"
  recoverer : Text := "restructure"
  layouter : Text := "dot"
  extraEnv : Table Text := []
  deriving DecidableEq, Repr

namespace Config

/-- A variable that an environment gives, without the blanks around it, or a default. -/
def given (env : Table Text) (name default : Text) : Text :=
  match (env.get? name).map Text.trim with
  | none | some [] => default
  | some value => value

/-- The configuration that an environment asks for. -/
def ofEnv (env : Table Text) : Config where
  decompiler := given env "EXPLORE_LL2GO" "ll2go2"
  extractor := given env "EXPLORE_LL2DOT" "ll2dot"
  recoverer := given env "EXPLORE_RESTRUCTURE" "restructure"
  layouter := given env "EXPLORE_DOT" "dot"

/-- The name of the log level that an environment asks for. -/
def logLevel (env : Table Text) : Text := given env "EXPLORE_LOG" "INFO"

/-- The environment that a program sees: what was set stays, the rest is added. -/
def environment (config : Config) (env : Table Text) : Table Text :=
  config.extraEnv.foldl
    (fun env (key, value) => if (env.get? key).isSome then env else env.set key value) env

end Config

end FlowReport
