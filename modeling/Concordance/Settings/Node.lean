import Concordance.Bytes

/-!
# Structured settings

Settings come as a tree of scalars, lists and mappings. A scalar is kept as its text: what kind of
value it is depends on the setting that asks for it.

In what syntax a tree is written down is a matter of the reader that is used (`SettingsSyntax`).
-/

namespace Concordance

/-- A tree of settings. -/
inductive SettingsNode where
  /-- Nothing: the setting keeps its default. -/
  | null
  | scalar (text : Bytes)
  | list (items : List SettingsNode)
  | mapping (entries : List (Bytes × SettingsNode))

namespace SettingsNode

/-- The node under a key. Only a mapping has keys. -/
def find? (node : SettingsNode) (key : Bytes) : Option SettingsNode :=
  match node with
  | mapping entries => (entries.find? fun e ↦ e.1 == key).map (·.2)
  | _ => none

/-- The text of a scalar. -/
def text? : SettingsNode → Option Bytes
  | scalar text => some text
  | _ => none

/-- The texts of a list of scalars. -/
def texts? : SettingsNode → Option (List Bytes)
  | list items => items.mapM text?
  | _ => none

end SettingsNode

/-- A syntax in which settings are written. -/
class SettingsSyntax where
  /-- The tree that a text means, or what is wrong with the text. -/
  parse : Bytes → Except Bytes SettingsNode

end Concordance
