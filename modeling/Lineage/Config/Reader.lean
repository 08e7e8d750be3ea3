import Lineage.Config
import Lineage.Text.Blank

/-!
# Lineage.Config.Reader

Reading settings from a tree of values, whatever notation the tree was written
in.  A setting that is missing has its default, one that is given twice is an
error, and fields that are no setting are left aside.  A blank text has the
default settings, whatever the parser would make of it.
-/

namespace Lineage.Config

/-- How the values of a notation are read. -/
structure ValueReader (β : Type) where
  /-- The sort that a value names. -/
  sort? : β → Option SortKind
  /-- The number that a value is. -/
  number? : β → Option Nat
  /-- The named fields of a value; `names` is their order where a notation can
  leave the names out. -/
  fields? (names : List String) : β → Option (List (String × β))

/-- What a field holds: the default if it is missing, nothing if it cannot be
read or is given twice. -/
def setting? {β γ : Type} (fields : List (String × β)) (name : String) (default : γ)
    (read? : β → Option γ) : Option γ :=
  match fields.filter (·.1 == name) with
  | [] => some default
  | [(_, value)] => read? value
  | _ => none

/-- The number in a section that has no other field. -/
def section? {β : Type} (r : ValueReader β) (name : String) (default : Nat) (value : β) :
    Option Nat :=
  (r.fields? [name] value).bind fun fields => setting? fields name default r.number?

/-- The settings that a value holds. -/
def ofValue? {β : Type} (r : ValueReader β) (value : β) : Option Config := do
  let standard : Config := {}
  let fields ← r.fields? ["default_sort", "linear_bek", "collapse"] value
  let defaultSort ← setting? fields "default_sort" standard.defaultSort r.sort?
  let maxBlockSize ← setting? fields "linear_bek" standard.maxBlockSize
    (section? r "max_block_size" standard.maxBlockSize)
  let minRunLength ← setting? fields "collapse" standard.minRunLength
    (section? r "min_run_length" standard.minRunLength)
  pure { defaultSort, maxBlockSize, minRunLength }

/-- The settings of a text, which a parser is only asked for if it is not
blank. -/
def ofText? (parse? : String → Option Config) (text : String) : Option Config :=
  if text.toList.all Text.isBlank then some {} else parse? text

end Lineage.Config
