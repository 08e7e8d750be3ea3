/-!
# Lineage.Command.Usage

Why a command line is not carried out.
-/

namespace Lineage

/-- Why a command line is not carried out. -/
inductive Usage where
  /-- Help was asked for. -/
  | help
  /-- The version was asked for. -/
  | version
  /-- There are no arguments. -/
  | nothing
  /-- There are options but no command. -/
  | noCommand
  /-- A word that should be a command is none. -/
  | unknownCommand
  /-- An option or a word that is not expected. -/
  | unknownArgument
  /-- Something that a command needs is missing. -/
  | missingArgument
  /-- An option without its value. -/
  | missingValue
  /-- A value after an option that takes none. -/
  | excessValue
  /-- A value that an option does not accept. -/
  | badValue
  /-- An option that may be given once is given again. -/
  | repeatedOption
deriving DecidableEq, Repr

namespace Usage

/-- What the user is told. -/
def message : Usage → String
  | .help =>
    "Query a commit graph read from stdin\n\n" ++
      "Usage: lineage [OPTIONS] <COMMAND>\n\n" ++
      "Commands: list, children, branches, contains, view, help"
  | .version => "lineage 0.1.0"
  | .nothing => "error: a command is needed, see --help"
  | .noCommand => "error: a command is needed, see --help"
  | .unknownCommand => "error: unrecognized command"
  | .unknownArgument => "error: unexpected argument"
  | .missingArgument => "error: a required argument was not provided"
  | .missingValue => "error: a value is required for an option"
  | .excessValue => "error: unexpected value for an option without one"
  | .badValue => "error: invalid value for an option"
  | .repeatedOption => "error: an option cannot be used multiple times"

end Usage

end Lineage
